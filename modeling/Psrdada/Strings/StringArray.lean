import Mathlib.Algebra.Ring.Nat
import Psrdada.Header.CString
import Psrdada.Memory.Slots

/-! # `string_array`: an array of strings on the heap

The array is a block of pointers that is reallocated whenever its size changes, each pointer owning a
string that `strdup` has allocated.  A function has no result where it would touch a slot outside the
block, follow a pointer to a string that is freed, free one twice, or find a failed assertion. -/

namespace StringArray

open CString

/-- The strings that have been allocated, by address; those that are freed are gone. -/
abbrev Heap := List (Option Text)

/-- `string_array_t`, with the heap that its pointers point into. -/
structure State where
  /-- `size`, an unsigned of 32 bits -/
  size : ℕ
  /-- `strs`: none is the null pointer -/
  strs : Option (List (Option ℕ))
  heap : Heap
  deriving DecidableEq, Repr

/-- The string at an address. -/
def Heap.string (heap : Heap) (p : ℕ) : Option Text := heap[p]?.join

/-- `free` of a string -/
def Heap.free (heap : Heap) (p : ℕ) : Option Heap :=
  if (heap.string p).isSome then some (heap.set p none) else none

/-- `string_array_create` -/
def create : State where
  size := 0
  strs := none
  heap := []

/-- `string_array_get`: some of none is the null pointer. -/
def get (list : State) (pos : ℕ) : Option (Option ℕ) :=
  if pos < list.size then
    (list.strs.bind fun strs => Slots.load strs pos).map some
  else some none

/-- `string_array_insert` -/
def insert (list : State) (entry : Text) (pos : ℕ) : Option (ℤ × State) :=
  if list.size < pos then some (-1, list)
  else
    let bytes := (list.size + 1) % 2 ^ 32
    -- of no bytes `realloc` returns the null pointer, against the assertion
    if bytes = 0 then none
    else
      let temp := Slots.realloc (list.strs.getD []) bytes
      (Slots.shiftUp pos list.size temp).bind fun strs =>
        (Slots.store strs pos list.heap.length).map fun strs =>
          (0, ⟨(list.size + 1) % 2 ^ 32, some strs, list.heap ++ [some entry]⟩)

/-- `string_array_append` -/
def append (list : State) (entry : Text) : Option (ℤ × State) :=
  insert list entry list.size

/-- `string_array_remove` -/
def remove (list : State) (pos : ℕ) : Option (ℤ × State) :=
  if list.size = 0 then some (-1, list)
  else if list.size ≤ pos then some (-1, list)
  else
    list.strs.bind fun strs =>
      (Slots.load strs pos).bind fun p =>
        (list.heap.free p).bind fun heap =>
          let size := list.size - 1
          (Slots.shiftDown (size - pos) pos strs).map fun strs =>
            if size = 0 then (0, ⟨size, none, heap⟩)
            else (0, ⟨size, some (Slots.realloc strs size), heap⟩)

/-- `string_array_switch` -/
def switch (list : State) (pos1 pos2 : ℕ) : Option (ℤ × State) :=
  list.strs.bind fun strs =>
    (Slots.load strs pos1).bind fun temp =>
      (Slots.load strs pos1).bind fun p =>
        (Slots.store strs pos2 p).bind fun strs =>
          (Slots.store strs pos1 temp).map fun strs => (0, { list with strs := some strs })

/-- The loop of `string_array_search` over the entries from `i` on: where the entry is, if it is there. -/
def searchLoop (list : State) (text : Text) : ℕ → ℕ → Option (Option ℕ)
  | 0, _ => some none
  | turns + 1, i =>
    list.strs.bind fun strs =>
      (Slots.load strs i).bind fun p =>
        (list.heap.string p).bind fun str =>
          if str = text then some (some p) else searchLoop list text turns (i + 1)

/-- `string_array_search` -/
def search (list : State) (text : Text) : Option (Option ℕ) := searchLoop list text list.size 0

/-- The loop of `string_array_filter` from `istr` on.  A turn shortens the array or the rest of it, so as
many turns as there are entries are enough. -/
def filterLoop (filter : Text) : ℕ → ℕ → State → Option (ℤ × State)
  | 0, _, list => some (0, list)
  | turns + 1, istr, list =>
    if istr < list.size then
      match get list istr with
      | some (some p) =>
        (list.heap.string p).bind fun str =>
          if (strstr str filter).isNone then
            (remove list istr).bind fun r => filterLoop filter turns (istr + 1) r.2
          else filterLoop filter turns (istr + 1) list
      | _ => none
    else some (0, list)

/-- `string_array_filter` -/
def filter (list : State) (filter : Text) : Option (ℤ × State) :=
  filterLoop filter list.size 0 list

/-- The words that `strtok` finds in a text. -/
def tokens (string white : Text) : List Text :=
  (string.splitOnP (· ∈ white)).filter (· ≠ [])

/-- The loop of `string_array_tok` over the words. -/
def tokLoop : List Text → State → Option (ℤ × State)
  | [], list => some (0, list)
  | word :: words, list =>
    (search list word).bind fun found =>
      if found = none then (append list word).bind fun r => tokLoop words r.2
      else tokLoop words list

/-- `string_array_tok` -/
def tok (list : State) (string white : Text) : Option (ℤ × State) := tokLoop (tokens string white) list

/-- A call on an array. -/
inductive Op
  | insert (entry : Text) (pos : ℕ)
  | append (entry : Text)
  | remove (pos : ℕ)
  | switch (pos1 pos2 : ℕ)
  | filter (filter : Text)
  | tok (string white : Text)
  deriving DecidableEq, Repr

/-- The call on the array. -/
def Op.run : Op → State → Option (ℤ × State)
  | insert entry pos, list => StringArray.insert list entry pos
  | append entry, list => StringArray.append list entry
  | remove pos, list => StringArray.remove list pos
  | switch pos1 pos2, list => StringArray.switch list pos1 pos2
  | filter text, list => StringArray.filter list text
  | tok string white, list => StringArray.tok list string white

end StringArray
