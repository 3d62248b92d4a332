import JvmLowering.Attempt
import JvmLowering.Lowering.Locals
import JvmLowering.Typing.VerifierTyping

/-!
# Frames at the entry of blocks

The local variables that are live at the entry of a block, in order, with unusable slots between
them. The operand stack is empty there, except that a handler finds the exception on it.
-/

namespace JvmLowering

namespace EntryFrames

/-- The local variables of a frame, and what has been reported, the newest first. -/
structure Layout where
  locals : Slots (VerificationType ClassId) := {}
  reports : List Event := []

/-- The receiver of an initialiser at its entry. -/
def isUninitialized (g : Hierarchy) (b : Body) (k : BlockId) (v : ValueId) : Bool :=
  let m := g.method b.method
  k = Body.entry && !m.isStatic && m.name =
    .init && (b.definition? v).any (·.operation = .argument 0)

def localType (g : Hierarchy) (b : Body) (t : VerifierTyping) (k : BlockId) (v : ValueId) :
    Except Error (VerificationType ClassId) :=
  if v ∉ b.values then .error (.noSuchValue v)
  else if isUninitialized g b k v then .ok .uninitializedThis
  else
    match (b.value v).type with
    | .field (.base base) => .ok (.ofBase base)
    | _ => t.typeOf v

/-- The values that are live at the entry of a block with their local variables, in the order of
these. -/
def liveSlots (a : Locals) (k : BlockId) : List (Nat × ValueId) :=
  let live := (a.liveAt k).filterMap fun v => (a.slot? v).map (·, v)
  live.mergeSort fun (m, v) (n, w) => m < n || m = n && v.num ≤ w.num

/-- Adds a value at its index. One that begins inside another is left out. -/
def placeLocal (g : Hierarchy) (b : Body) (t : VerifierTyping) (k : BlockId) (l : Layout)
    (entry : Nat × ValueId) :
    Layout × Option Error :=
  let (slot, v) := entry
  if slot < l.locals.extent then ({ l with reports := .localsOverlap v k :: l.reports }, none)
  else
    let padded := l.locals.pushAll (List.replicate (slot - l.locals.extent) .top)
    match localType g b t k v with
    | .ok type => ({ l with locals := (padded.push type).2 }, none)
    | .error e => (l, some e)

/-- The exception that a handler finds. -/
def entryStack (b : Body) (k : BlockId) : Slots (VerificationType ClassId) :=
  .ofList ((b.caught? k).toList.map fun c => .object (.object c))

/-- The frames of some blocks, the newest first, and what has been reported, the newest first. -/
structure Progress where
  frames : List (BlockId × Frame ClassId) := []
  reports : List Event := []

def addFrame (g : Hierarchy) (b : Body) (a : Locals) (t : VerifierTyping)
    (p : Progress) (k : BlockId) :
    Progress × Option Error :=
  match attemptAll (placeLocal g b t k) { reports := p.reports } (liveSlots a k) with
  | (l, some e) => ({ p with reports := l.reports }, some e)
  | (l, none) => (⟨(k, ⟨l.locals, entryStack b k⟩) :: p.frames, l.reports⟩, none)

/-- The frame at the entry of each block. -/
def compute (g : Hierarchy) (b : Body) (a : Locals) (t : VerifierTyping) :
    Reported (Except Error (List (BlockId × Frame ClassId))) :=
  match attemptAll (addFrame g b a t) {} b.blocks.indices with
  | (p, none) => ⟨.ok p.frames.reverse, p.reports.reverse⟩
  | (p, some e) => ⟨.error e, p.reports.reverse⟩

end EntryFrames

end JvmLowering
