/-!
# Entries at slot offsets

`long` and `double` take two slots, everything else takes one, both on the operand stack and among
the local variables. `Slots` is a stack of entries each of which remembers the offset where it
starts: its height on the operand stack, or its local variable index in a frame.
-/

namespace JvmLowering

/-- Things that occupy slots. -/
class HasWidth (α : Type) where
  /-- How many slots it occupies. -/
  width : α → Nat

export HasWidth (width)

/-- An entry with the offset where it starts and the number of entries before it. -/
structure Placed (α : Type) where
  offset : Nat
  index : Nat
  entry : α
deriving DecidableEq, Repr

/-- Entries, the newest first, each with its offset, and the offset of the next one. -/
structure Slots (α : Type) where
  newestFirst : List (Nat × α) := []
  extent : Nat := 0
deriving DecidableEq, Repr

namespace Slots

variable {α : Type}

def empty : Slots α := {}

def isEmpty (s : Slots α) : Bool := s.newestFirst.isEmpty

/-- Adds an entry at the end and says where it starts. -/
def push [HasWidth α] (s : Slots α) (a : α) : Nat × Slots α :=
  (s.extent, ⟨(s.extent, a) :: s.newestFirst, s.extent + width a⟩)

/-- Adds an entry if the offset after it is at most `limit`, the largest that can be counted. -/
def push? [HasWidth α] (limit : Nat) (s : Slots α) (a : α) : Option (Nat × Slots α) :=
  if s.extent + width a ≤ limit then some (s.push a) else none

/-- Takes the last entry away. -/
def pop? (s : Slots α) : Option (Placed α × Slots α) :=
  match s.newestFirst with
  | [] => none
  | (offset, a) :: rest => some (⟨offset, rest.length, a⟩, ⟨rest, offset⟩)

/-- What remains without the last entry. -/
def pop (s : Slots α) : Slots α :=
  match s.pop? with
  | none => s
  | some (_, rest) => rest

/-- The last entry and its offset. -/
def last? (s : Slots α) : Option (Nat × α) := s.newestFirst.head?

/-- The entries with their offsets, the oldest first. -/
def toList (s : Slots α) : List (Nat × α) := s.newestFirst.reverse

/-- The entries with their offsets and positions, the oldest first. -/
def placements (s : Slots α) : List (Placed α) :=
  s.toList.zipIdx.map fun ((offset, a), index) => ⟨offset, index, a⟩

/-- Pushes the entries of a list in order. -/
def pushAll [HasWidth α] (s : Slots α) (entries : List α) : Slots α :=
  entries.foldl (fun t a => (t.push a).2) s

def ofList [HasWidth α] (entries : List α) : Slots α := empty.pushAll entries

/-- Collects entries if all offsets can be counted. -/
def ofList? [HasWidth α] (limit : Nat) (entries : List α) : Option (Slots α) :=
  entries.foldlM (fun t a => (t.push? limit a).map Prod.snd) empty

/-- Equal entries at equal offsets. -/
instance [BEq α] : BEq (Slots α) := ⟨fun s t => s.newestFirst == t.newestFirst⟩

/-- Every entry as `#offset = entry`. -/
def render (showEntry : α → String) (s : Slots α) : String :=
  "[" ++ ", ".intercalate (s.toList.map fun (offset, a) => s!"#{offset} = " ++ showEntry a) ++ "]"

@[simp] theorem pop_push [HasWidth α] (s : Slots α) (a : α) : (s.push a).2.pop = s := rfl

@[simp] theorem extent_push [HasWidth α] (s : Slots α) (a : α) :
    (s.push a).2.extent = s.extent + width a := rfl

@[simp] theorem toList_push [HasWidth α] (s : Slots α) (a : α) :
    (s.push a).2.toList = s.toList ++ [(s.extent, a)] := by
  simp [push, toList]

end Slots

end JvmLowering
