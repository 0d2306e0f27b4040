import PickleTrial.Proofs.Encoding.Delivery

/-! Structurally valid streams. A walk reads a stream opcode by opcode and keeps no values, but only
where on the stack a value or a mark stands, and which slots of the memo are taken. It ends at the
first opcode that may not stand where it does. -/

namespace PickleTrial

namespace Walk

/-- What stands at a place of the stack. -/
inductive Place
  | mark
  | value
deriving DecidableEq

def takeValues? : (count : Nat) → List Place → Option (List Place)
  | 0, stack => some stack
  | count + 1, .value :: below => takeValues? count below
  | _, _ => none

def takeToMark? : List Place → Option (Nat × List Place)
  | [] => none
  | .mark :: below => some (0, below)
  | .value :: below => (takeToMark? below).map fun found => (found.1 + 1, found.2)

def onValue? : List Place → Option (List Place)
  | .value :: below => some (.value :: below)
  | _ => none

/-- What stands above a mark is added to the value below, so many at most and in groups of a
size. -/
def addToValue? (limit group : Nat) (stack : List Place) : Option (List Place) :=
  (takeToMark? stack).bind fun found =>
    if found.1 ≤ limit ∧ found.1 % group = 0 then onValue? found.2 else none

/-- What an opcode that neither drops anything nor concerns the memo makes of a stack. -/
def effect? : Opcode → List Place → Option (List Place)
  | .mark, stack => some (.mark :: stack)
  | .popMark, stack => (takeToMark? stack).map Prod.snd
  | .none, stack | .newTrue, stack | .newFalse, stack | .int _, stack | .binInt _, stack
  | .binInt1 _, stack | .binInt2 _, stack | .long _, stack | .long1 _, stack | .long4 _, stack
  | .float _, stack | .binFloat _, stack | .unicode _, stack | .shortBinUnicode _, stack
  | .binUnicode _, stack | .binUnicode8 _, stack | .shortBinBytes _, stack | .binBytes _, stack
  | .binBytes8 _, stack | .byteArray8 _, stack | .emptyTuple, stack | .emptyList, stack
  | .emptyDict, stack | .emptySet, stack | .global _ _, stack => some (.value :: stack)
  | .tuple1, stack => (takeValues? 1 stack).map (.value :: ·)
  | .tuple2, stack => (takeValues? 2 stack).map (.value :: ·)
  | .tuple3, stack => (takeValues? 3 stack).map (.value :: ·)
  | .tuple, stack | .list, stack => (takeToMark? stack).map fun found => .value :: found.2
  | .dict, stack =>
      (takeToMark? stack).bind fun found =>
        if found.1 % 2 = 0 then some (.value :: found.2) else none
  | .append, stack => (takeValues? 1 stack).bind onValue?
  | .setItem, stack => (takeValues? 2 stack).bind onValue?
  | .appends, stack => addToValue? 1000 1 stack
  | .setItems, stack => addToValue? 2000 2 stack
  | .addItems, stack => addToValue? 1000 1 stack
  | .stackGlobal, stack | .reduce, stack => (takeValues? 2 stack).map (.value :: ·)
  | _, _ => none

/-- What a walk through a stream of protocol 0 does with a tuple that is there already: it drops
the values of the tuple one by one, then the mark below them, and then fetches the tuple. -/
inductive Phase
  | ordinary
  | dropping
  | fetching
deriving DecidableEq

end Walk

/-- How far a walk came. -/
structure Walk where
  stack : List Walk.Place := []
  stored : List Nat := []
  phase : Walk.Phase := .ordinary

namespace Walk

/-- Drop what is on top. Only protocol 0 drops a mark, as the last of a run of drops, the others
of which dropped what stood above it. -/
def drop? (protocol : Protocol) (walk : Walk) : Option Walk :=
  match walk.stack with
  | .value :: below =>
      some { walk with
        stack := below
        phase := if protocol.version = 0 then .dropping else .ordinary }
  | .mark :: below =>
      if protocol.version = 0 ∧ walk.phase = .dropping then
        some { walk with stack := below, phase := .fetching }
      else none
  | [] => none

def store? (walk : Walk) (slot : Nat) : Option Walk :=
  (onValue? walk.stack).map fun stack => { walk with stack, stored := slot :: walk.stored }

def fetch? (walk : Walk) (slot : Nat) : Option Walk :=
  if slot ∈ walk.stored then
    some { walk with stack := .value :: walk.stack, phase := .ordinary }
  else none

/-- What an opcode does in the phase it stands in. From protocol 4 on no opcode names the slot
that it gives. -/
def act? (protocol : Protocol) (walk : Walk) (opcode : Opcode) : Option Walk :=
  match walk.phase, opcode with
  | .ordinary, .frame _ => some walk
  | .ordinary, .pop => walk.drop? protocol
  | .ordinary, .memoize => walk.store? walk.stored.length
  | .ordinary, opcode =>
      match opcode.putSlot?, opcode.getSlot? with
      | some slot, _ => if protocol.version < 4 then walk.store? slot else none
      | _, some slot => walk.fetch? slot
      | none, none => (effect? opcode walk.stack).map fun stack => { walk with stack }
  | .dropping, .pop => walk.drop? protocol
  | .fetching, .get line => (Opcode.get line).getSlot?.bind walk.fetch?
  | _, _ => none

/-- An opcode that the protocol has. -/
def step? (protocol : Protocol) (walk : Walk) (opcode : Opcode) : Option Walk :=
  if opcode.since ≤ protocol.version then walk.act? protocol opcode else none

def run? (protocol : Protocol) (opcodes : List Opcode) (walk : Walk) : Option Walk :=
  opcodes.foldlM (step? protocol) walk

/-- Whether a stop may stand here: exactly one value is left. -/
def mayStop (walk : Walk) : Bool :=
  walk.stack = [.value] ∧ walk.phase = .ordinary

/-- Whether opcodes are those of a value and a stop at their end. -/
def acceptsBody (protocol : Protocol) (opcodes : List Opcode) : Bool :=
  opcodes.getLast? = some .stop ∧
    (run? protocol opcodes.dropLast {}).any mayStop

/-- Whether opcodes are those of a stream: behind a header that tells the protocol, from
protocol 2 on and not before, those of a value and a stop. -/
def accepts (protocol : Protocol) : List Opcode → Bool
  | .proto version :: body =>
      2 ≤ protocol.version && version = protocol.version && acceptsBody protocol body
  | body => protocol.version < 2 && acceptsBody protocol body

/-- Behind the heading of its protocol a stream is accepted for its body. -/
theorem accepts_heading_append {protocol : Protocol} {body : List Opcode}
    (noHeader : ∀ version rest, body ≠ .proto version :: rest) :
    accepts protocol (Trace.heading protocol ++ body) = acceptsBody protocol body := by
  rw [Trace.heading]
  split
  · rename_i recent
    simp [accepts, recent]
  · rename_i old
    have early : protocol.version < 2 := by omega
    rw [List.nil_append, accepts, decide_eq_true early, Bool.true_and]
    exact noHeader

/-- Whether bytes are a stream of a protocol, and nothing follows it. -/
def isValid (protocol : Protocol) (bytes : Bytes) : Bool :=
  match Stream.read? bytes with
  | some (opcodes, []) => accepts protocol opcodes
  | _ => false

/-- A tuple within its own list, from protocol 2. -/
example : isValid ⟨2, by decide⟩ [0x80, 0x02, 0x5d, 0x71, 0x00, 0x68, 0x00, 0x85, 0x71, 0x01, 0x61,
    0x30, 0x68, 0x01, 0x2e] = true := by decide +kernel

/-- A slot that was never given is not fetched. -/
example : isValid ⟨2, by decide⟩ [0x80, 0x02, 0x68, 0x00, 0x2e] = false := by decide +kernel

end Walk

end PickleTrial
