import PhpExts.Zend.Heap

/-!
# Classes and user code

The user code both extensions call: looking a class up, the handlers of the
`Serializable` interface and the magic methods. It is outside of the extensions
and enters as a parameter, by the results they act on.
-/

namespace PhpExts.Zend

/-- The property that keeps the name of a class that is not defined:
`__PHP_Incomplete_Class_Name`. -/
def magicMember : Bytes :=
  [95, 95, 80, 72, 80, 95, 73, 110, 99, 111, 109, 112, 108, 101, 116, 101, 95, 67, 108, 97, 115,
    115, 95, 78, 97, 109, 101]

/-- The name of an object whose stored class name is lost:
`__PHP_Incomplete_Class`. -/
def incompleteClassName : Bytes :=
  [95, 95, 80, 72, 80, 95, 73, 110, 99, 111, 109, 112, 108, 101, 116, 101, 95, 67, 108, 97, 115,
    115]

def text (bytes : Bytes) : String := String.ofList (bytes.map fun byte => Char.ofNat byte.toNat)

/-- What a class's `serialize` handler gives: the data, a failure without an
exception (`serialize()` returned null), or an exception. -/
inductive SerializeResult where
  | data (bytes : Bytes)
  | failure
  | exception

/-- What calling `__sleep` gives: the table of the array it returned, by the
values of its elements (`none` for an element that is no string); a value that
is no array; no value; or an exception. -/
inductive SleepResult where
  | names (elements : List (HashKey × Option Bytes))
  | notArray
  | noValue
  | exception

structure UserCode where
  /-- `ce->serialize` on an object. -/
  serialize : Handle → SerializeResult
  /-- `__sleep` on an object. -/
  sleep : Handle → SleepResult
  /-- `zend_lookup_class`. -/
  lookupClass : Bytes → Option ClassEntry
  /-- `PG(unserialize_callback_func)`, if it is set: `none` if the call fails,
  else the class looked up after it. -/
  callback : Option (Bytes → Option (Option ClassEntry))
  /-- Whether looking the class up has raised an exception. -/
  lookupRaises : Bytes → Bool
  /-- Whether `ce->unserialize` succeeds on the data without an exception. -/
  unserialize : ClassEntry → Bytes → Bool
  /-- Whether `__wakeup` raises an exception. -/
  wakeupRaises : ClassEntry → Bool

def UserCode.nothing : UserCode where
  serialize _ := .failure
  sleep _ := .noValue
  lookupClass _ := none
  callback := none
  lookupRaises _ := false
  unserialize _ _ := false
  wakeupRaises _ := false

/-- `PHP_IC_ENTRY`, the class entry that stands for a class that is not defined. -/
def incompleteClass : ClassEntry :=
  { name := incompleteClassName, isIncomplete := true, serialize := false, unserialize := false,
    sleep := false, wakeup := false }

end PhpExts.Zend
