import PickleTrial.Proofs.Encoding.Renaming
import PickleTrial.Proofs.Encoding.Validity

/-! Where a frame may end, an object begins. What is written depends on the memo and not on what
stands on the stack, so the opcodes of an object put one value on top of any stack. Every place at
which a plan lets a frame end stands before such an object. -/

namespace PickleTrial

namespace Walk

variable {protocol : Protocol}

/-! ## Other stacks -/

private theorem stored_drop? {walk later : Walk} (dropped : walk.drop? protocol = some later) :
    later.stored = walk.stored := by
  unfold drop? at dropped
  split at dropped
  · cases dropped
    rfl
  · split at dropped <;> cases dropped
    rfl
  · cases dropped

/-- An opcode that gives no slot leaves the slots alone. -/
private theorem stored_step? {walk later : Walk} {opcode : Opcode} (keeps : opcode.stores = false)
    (step : walk.step? protocol opcode = some later) : later.stored = walk.stored := by
  have unnamed : opcode.putSlot? = none := by
    cases opcode with
    | put | binPut | longBinPut => cases keeps
    | _ => rfl
  rw [step?] at step
  split at step
  · unfold act? at step
    split at step
    · cases step
      rfl
    · exact stored_drop? step
    · cases keeps
    · split at step
      · rename_i slotNamed
        rw [unnamed] at slotNamed
        cases slotNamed
      · rw [eq_of_fetch? step]
      · rcases Option.map_eq_some_iff.1 step with ⟨stack, -, rfl⟩
        rfl
    · exact stored_drop? step
    · rcases Option.bind_eq_some_iff.1 step with ⟨slot, -, step⟩
      rw [eq_of_fetch? step]
    · cases step
  · cases step

/-- Only a value can be given a slot. -/
private theorem exists_value_of_memoize {walk later : Walk} (recent : 4 ≤ protocol.version)
    (ordinary : walk.phase = .ordinary) (step : walk.step? protocol .memoize = some later) :
    ∃ below, walk.stack = .value :: below := by
  rcases walk with ⟨stack, stored, phase⟩
  have same : phase = .ordinary := ordinary
  subst same
  rw [step?, if_pos (show Opcode.memoize.since ≤ _ from recent)] at step
  rcases Option.map_eq_some_iff.1 (show (onValue? stack).map _ = _ from step) with
      ⟨_, onValue, -⟩
  cases stack with
  | nil => cases onValue
  | cons place below =>
      cases place with
      | mark => cases onValue
      | value => exact ⟨below, rfl⟩

/-- The walk along what a trace has written so far, as far as the walk along the whole is known. -/
private theorem along_of_run? (recent : 4 ≤ protocol.version) {trace : Trace}
    (grows : Trace.Grows protocol {} trace) {walk : Walk}
    (run : run? protocol trace.opcodes {} = some walk) : Along protocol trace walk := by
  have binary : protocol.version ≠ 0 := by omega
  induction grows generalizing walk with
  | refl =>
      cases run
      exact ⟨rfl, rfl, Memo.faithful_empty, rfl, fun slot given => absurd given (by simp)⟩
  | split _ induction => exact (induction (by rwa [Trace.opcodes_split] at run)).split
  | begins id _ induction => exact (induction (by rwa [Trace.opcodes_begins] at run)).begins id
  | emit plain _ induction =>
      rw [Trace.opcodes_emit, run?_concat] at run
      rcases Option.bind_eq_some_iff.1 run with ⟨middle, run, step⟩
      have along := induction run
      exact along.emit step (ordinary_of_step? binary along.ordinary step)
        (stored_step? plain.keeps step)
  | @remember middle key _ induction =>
      have whole := run
      rw [Trace.opcodes_remember, run?_concat] at run
      rcases Option.bind_eq_some_iff.1 run with ⟨before, run, step⟩
      have along := induction run
      rw [show protocol.putOpcode middle.memo.next = .memoize from if_pos recent] at step
      rcases exists_value_of_memoize recent along.ordinary step with ⟨below, top⟩
      rcases along.remember top key with ⟨later, along, -⟩
      cases whole.symm.trans along.run
      exact along

/-- The walk along a trace goes on in the same way over any other stack: some trace with the same
memo comes to it. -/
private theorem exists_along_stack (binary : protocol.version ≠ 0) {trace : Trace} {walk : Walk}
    (along : Along protocol trace walk) (stack : List Place) :
    ∃ other, other.memo = trace.memo ∧ Along protocol other { walk with stack } := by
  -- The stack is cleared place by place, and the other one is put in its stead.
  have cleared : ∃ other, other.memo = trace.memo ∧
      Along protocol other { walk with stack := [] } := by
    rcases walk with ⟨below, stored, phase⟩
    induction below generalizing trace with
    | nil => exact ⟨trace, rfl, along⟩
    | cons place below induction =>
        have ordinary : phase = .ordinary := along.ordinary
        subst ordinary
        cases place with
        | mark =>
            have since : Opcode.popMark.since ≤ protocol.version := Nat.pos_of_ne_zero binary
            have later := induction (along.effect since rfl)
            exact later
        | value =>
            have step : (Walk.mk (.value :: below) stored .ordinary).step? protocol .pop =
                some ⟨below, stored, .ordinary⟩ := by
              rw [step?, if_pos (show Opcode.pop.since ≤ _ from Nat.zero_le _)]
              simp [act?, drop?, binary]
            have later := induction (along.emit step rfl rfl)
            exact later
  induction stack with
  | nil => exact cleared
  | cons place below induction =>
      rcases induction with ⟨other, same, along⟩
      cases place with
      | mark => exact ⟨other.emit .mark, same, along.effect (Nat.zero_le _) rfl⟩
      | value => exact ⟨other.emit .none, same, along.effect (Nat.zero_le _) rfl⟩

/-- Behind opcodes an object begins: what follows them begins with opcodes that put one value on
top, whatever else stands on the stack. -/
def StartsObject (protocol : Protocol) (before after : List Opcode) : Prop :=
  ∃ walk object rest, run? protocol before {} = some walk ∧ after = object ++ rest ∧
    ∀ below, ∃ stored, run? protocol object { walk with stack := below } =
      some ⟨.value :: below, stored, .ordinary⟩

/-! ## Plans -/

/-- Steps in which every place where a frame may end stands before an item that puts one value on
top. -/
inductive Itemized (protocol : Protocol) (write : NodeId → Trace → Trace.Outcome) :
    List Step → Prop
  | nil : Itemized protocol write []
  | step {step : Step} {rest : List Step} : step ≠ .split → Itemized protocol write rest →
      Itemized protocol write (step :: rest)
  | item {item rest : List Step} : Puts protocol write 1 item → Itemized protocol write item →
      Itemized protocol write rest → Itemized protocol write (.split :: (item ++ rest))

namespace Itemized

variable {write : NodeId → Trace → Trace.Outcome} {first second steps : List Step}
  {items : List (List Step)}

private theorem append (left : Itemized protocol write first)
    (right : Itemized protocol write second) : Itemized protocol write (first ++ second) := by
  induction left with
  | nil => exact right
  | step other _ induction => exact .step other induction
  | item puts inside _ _ induction =>
      rw [List.cons_append, List.append_assoc]
      exact .item puts inside induction

private theorem of_forall_ne (noSplit : ∀ step ∈ steps, step ≠ .split) :
    Itemized protocol write steps := by
  induction steps with
  | nil => exact .nil
  | cons step rest induction =>
      have parts := List.forall_mem_cons.1 noSplit
      exact .step parts.1 (induction parts.2)

private theorem additive : Protocol.Additive (Itemized protocol write) :=
  ⟨.nil, fun opcode => of_forall_ne (by simp), append⟩

theorem emptyTuple : Itemized protocol write protocol.emptyTuple := by
  rw [Protocol.emptyTuple]
  split <;> exact of_forall_ne (by simp)

private theorem freshText (content : String) :
    Itemized protocol write (protocol.freshText content) :=
  of_forall_ne (by simp [Protocol.freshText])

theorem int (value : Int) : Itemized protocol write (protocol.int value) :=
  of_forall_ne (by simp [Protocol.int])

theorem float (value : Binary64) : Itemized protocol write (protocol.float value) :=
  of_forall_ne (by simp [Protocol.float])

section Items

variable (puts : ∀ item ∈ items, Puts protocol write 1 item)
  (inItems : ∀ item ∈ items, Itemized protocol write item)

include puts inItems

private theorem splitItem {item : List Step} (listed : item ∈ items) :
    Itemized protocol write (.split :: item) := by
  rw [← List.append_nil item]
  exact .item (puts item listed) (inItems item listed) .nil

private theorem tupleItems : Itemized protocol write (protocol.tupleItems items) := by
  refine append ?_ (additive.flatMap fun item listed => splitItem puts inItems listed)
  split <;> exact of_forall_ne (by simp)

private theorem call (callable : Callable) (key : Option MemoKey) :
    Itemized protocol write (protocol.call callable items key) := by
  have arguments : Itemized protocol write (protocol.arguments items) := by
    rw [Protocol.arguments]
    split
    · exact emptyTuple
    · exact (tupleItems puts inItems).append (of_forall_ne (by simp))
  exact .step (by simp) (arguments.append (of_forall_ne (by simp)))

private theorem list (key : Option MemoKey) :
    Itemized protocol write (protocol.list items key) := by
  refine append ?_ (additive.additions fun item listed => ?_)
  · split <;> exact of_forall_ne (by simp)
  · rcases List.mem_map.1 listed with ⟨inner, inside, rfl⟩
    exact splitItem puts inItems inside

end Items

theorem bytes (payload : Bytes) (key : Option MemoKey) :
    Itemized protocol write (protocol.bytes payload key) := by
  rw [Protocol.bytes]
  split
  · exact of_forall_ne (by simp)
  · split
    · exact call (by simp) (by simp) .bytes key
    · refine call ?_ ?_ .encodeText key
      · simp only [List.forall_mem_cons]
        exact ⟨puts_freshText _, puts_sharedText _, by simp⟩
      · simp only [List.forall_mem_cons]
        exact ⟨freshText _, of_forall_ne (by simp), by simp⟩

theorem byteArray (payload : Bytes) (key : Option MemoKey) :
    Itemized protocol write (protocol.byteArray payload key) := by
  rw [Protocol.byteArray]
  split
  · exact of_forall_ne (by simp)
  · split
    · exact call (by simp) (by simp) .byteArray key
    · refine call ?_ ?_ .byteArray key
      · simpa using puts_bytes payload none
      · simpa using bytes payload none

theorem arrayItems (value : TypedArray) :
    ∀ item ∈ protocol.arrayItems value, Itemized protocol write item := by
  intro item member
  cases value with
  | text characters =>
      rcases List.mem_map.1 member with ⟨character, -, rfl⟩
      exact freshText _
  | integers code words =>
      rw [Protocol.arrayItems_integers] at member
      rcases List.mem_map.1 member with ⟨word, -, rfl⟩
      exact int _
  | singles items =>
      rcases List.mem_map.1 member with ⟨item, -, rfl⟩
      exact float _
  | doubles items =>
      rcases List.mem_map.1 member with ⟨item, -, rfl⟩
      exact float _

theorem array (value : TypedArray) (key : Option MemoKey) :
    Itemized protocol write (protocol.array value key) := by
  rw [Protocol.array_eq_call]
  split
  · refine call ?_ ?_ .restoreArray key
    · simp only [List.forall_mem_cons]
      exact ⟨puts_callable _, puts_freshText _, puts_int _, puts_bytes _ _, by simp⟩
    · simp only [List.forall_mem_cons]
      exact ⟨of_forall_ne (by simp), freshText _, int _, bytes _ _, by simp⟩
  · refine call ?_ ?_ .array key
    · simp only [List.forall_mem_cons]
      exact ⟨puts_freshText _, puts_list (puts_arrayItems value) none, by simp⟩
    · simp only [List.forall_mem_cons]
      exact ⟨freshText _, list (puts_arrayItems value) (arrayItems value) none, by simp⟩

section Nodes

variable (nodes : ∀ id, Puts protocol write 1 [.node id])

include nodes

private theorem nodeItems (children : List NodeId) :
    (∀ item ∈ children.map fun child => [Step.node child], Puts protocol write 1 item) ∧
      ∀ item ∈ children.map fun child => [Step.node child], Itemized protocol write item := by
  constructor
  · intro item listed
    rcases List.mem_map.1 listed with ⟨child, -, rfl⟩
    exact nodes child
  · intro item listed
    rcases List.mem_map.1 listed with ⟨child, -, rfl⟩
    exact of_forall_ne (by simp)

private theorem set (items : List NodeId) (key : Option MemoKey) :
    Itemized protocol write (protocol.set items key) := by
  rcases nodeItems nodes items with ⟨puts, inItems⟩
  rw [Protocol.set]
  split
  · exact (of_forall_ne (by simp)).append (additive.additions inItems)
  · refine call ?_ ?_ .set key
    · simpa using puts_list puts none
    · simpa using list puts inItems none

/-- Every plan lets frames end before items only. -/
theorem plan {id : NodeId} {node : Node} {steps : List Step}
    (plan : protocol.plan id node = .ok steps) : Itemized protocol write steps := by
  have packed (callable : Callable) (payload : Bytes) (key : Option MemoKey) :
      Itemized protocol write (protocol.call callable [protocol.bytes payload none] key) :=
    call (by simpa using puts_bytes payload none) (by simpa using bytes payload none) callable key
  cases Protocol.hasPlan_of_plan plan with
  | none | bool value | text value => exact of_forall_ne (by simp)
  | int value => exact int _
  | bigInt read => exact int _
  | float value => exact float value
  | bytes value => exact bytes value _
  | byteArray value => exact byteArray value _
  | complex re im =>
      refine call ?_ ?_ .complex _
      · simpa using ⟨puts_float re, puts_float im⟩
      · simpa using ⟨float re, float im⟩
  | moment value | date value | time value => exact packed _ value.packed _
  | duration counted =>
      refine call ?_ ?_ .duration _
      · simp only [List.forall_mem_cons]
        exact ⟨puts_int _, puts_int _, puts_int _, by simp⟩
      · simp only [List.forall_mem_cons]
        exact ⟨int _, int _, int _, by simp⟩
  | decimal canonical =>
      refine call ?_ ?_ .decimal _
      · simpa using puts_freshText _
      · simpa using freshText _
  | array value => exact array value _
  | emptyTuple => exact emptyTuple
  | tuple nonempty =>
      rcases nodeItems nodes _ with ⟨puts, inItems⟩
      exact (tupleItems puts inItems).append (of_forall_ne (by simp))
  | list items =>
      rcases nodeItems nodes items with ⟨puts, inItems⟩
      exact list puts inItems _
  | set items => exact set nodes items _
  | dict entries =>
      refine append ?_ (additive.additions fun item listed => ?_)
      · split <;> exact of_forall_ne (by simp)
      · rcases List.mem_map.1 listed with ⟨entry, -, rfl⟩
        exact of_forall_ne (by simp)

end Nodes

end Itemized

end Walk

namespace Trace

variable {graph : Graph} {protocol : Protocol} {depth : Nat}

/-! ## Objects -/

/-- Steps add the same events to a trace whatever it has written, given its memo. -/
private theorem exists_performAll_of_memo_eq {steps : List Step} {first other second : Trace}
    (same : other.memo = first.memo)
    (performed : performAll protocol (writeNode graph protocol depth) steps first =
      .complete second) :
    ∃ final added, performAll protocol (writeNode graph protocol depth) steps other =
        .complete final ∧
      second.events = first.events ++ added ∧ final.events = other.events ++ added := by
  have alike : Alike (fun id => id) (fun _ => True) first.events other.events first other :=
    ⟨⟨by rw [same], fun key _ => by rw [same, MemoKey.rename_id]⟩, [], by simp, by simp⟩
  have copies : Graph.Copies (fun id => id) (fun _ => True) graph graph :=
    ⟨fun _ _ => trivial, fun _ _ _ _ same => same, fun {id} _ => by
      cases graph.node? id <;> simp⟩
  have every : ∀ step ∈ steps, step.Within fun _ => True := by
    intro step _
    cases step <;> simp [Step.Within]
    intro key _
    cases key <;> trivial
  have outcomes : Outcome.Alike (fun id => id) (fun _ => True) first.events other.events
      (performAll protocol (writeNode graph protocol depth) steps first)
      (performAll protocol (writeNode graph protocol depth)
        (steps.map (Step.rename fun id => id)) other) := by
    refine alike.performAll copies.injective ?_ every
    exact fun _ _ _ own alike => alike.writeNode copies own
  rw [List.map_id'' Step.rename_id, performed] at outcomes
  generalize performAll protocol (writeNode graph protocol depth) steps other = outcome at outcomes
  cases outcomes with
  | complete alike =>
      rcases alike.added with ⟨added, isSecond, isFinal⟩
      rw [List.map_id'' Event.rename_id] at isFinal
      exact ⟨_, added, rfl, isSecond, isFinal⟩

/-- One trace is another with an object behind it: what was added puts one value on top of any
stack, wherever the memo is the same. -/
def Placed (protocol : Protocol) (first second : Trace) : Prop :=
  ∃ added, second.events = first.events ++ added ∧
    ∀ other stack, other.memo = first.memo → Walk.Leaves protocol other stack →
      ∃ final, final.events = other.events ++ added ∧
        Walk.Leaves protocol final (.value :: stack)

private theorem placed_of_puts {item : List Step} {first second : Trace}
    (puts : Walk.Puts protocol (writeNode graph protocol depth) 1 item)
    (performed : performAll protocol (writeNode graph protocol depth) item first =
      .complete second) : Placed protocol first second := by
  rcases exists_performAll_of_memo_eq rfl performed with ⟨-, added, -, isSecond, -⟩
  refine ⟨added, isSecond, fun other stack same leaves => ?_⟩
  rcases exists_performAll_of_memo_eq same performed with
      ⟨final, sameAdded, performedOther, isSame, isFinal⟩
  cases List.append_cancel_left (isSecond.symm.trans isSame)
  exact ⟨final, isFinal, (puts stack).leaves leaves performedOther⟩

private theorem placed_freshText (trace : Trace) (content : String) :
    Placed protocol trace (trace.freshText protocol content) := by
  have performed : performAll protocol (writeNode {} protocol 0) (protocol.freshText content)
      trace = .complete (trace.freshText protocol content) := rfl
  exact placed_of_puts (Walk.puts_freshText content) performed

private theorem placed_sharedText (trace : Trace) (content : String) :
    Placed protocol trace (trace.sharedText protocol content) := by
  have performed : performAll protocol (writeNode {} protocol 0) [.sharedText content]
      trace = .complete (trace.sharedText protocol content) := rfl
  exact placed_of_puts (Walk.puts_sharedText content) performed

/-- At a place of the events an object begins. -/
def ObjectAt (protocol : Protocol) (trace : Trace) (index : Nat) : Prop :=
  ∃ begun done, Grows protocol {} begun ∧ begun.events.length = index + 1 ∧
    Placed protocol begun done ∧ Grows protocol done trace

/-- Wherever a frame may end between one trace and another, an object begins. -/
structure Breaks (protocol : Protocol) (first second : Trace) : Prop where
  grows : Grows protocol first second
  objects : Grows protocol {} first → ∀ index, first.events.length ≤ index →
    second.events[index]? = some .split → ObjectAt protocol second index

namespace Breaks

variable {first second third : Trace}

private theorem refl (trace : Trace) : Breaks protocol trace trace where
  grows := .refl
  objects _ index later split := by
    rw [List.getElem?_eq_none later] at split
    cases split

private theorem trans (left : Breaks protocol first second) (right : Breaks protocol second third) :
    Breaks protocol first third where
  grows := left.grows.trans right.grows
  objects whole index later split := by
    by_cases earlier : index < second.events.length
    · rw [right.grows.getElem?_events earlier] at split
      rcases left.objects whole index later split with ⟨begun, done, grows, length, placed, rest⟩
      exact ⟨begun, done, grows, length, placed, rest.trans right.grows⟩
    · exact right.objects (whole.trans left.grows) index (Nat.not_lt.1 earlier) split

private theorem of_event {event : Event} (grows : Grows protocol first second)
    (added : second.events = first.events ++ [event]) (other : event ≠ .split) :
    Breaks protocol first second where
  grows := grows
  objects _ index later split := by
    rw [added, List.getElem?_append_right later] at split
    exact absurd (List.mem_singleton.1 (List.mem_of_getElem? split)).symm other

private theorem begins (trace : Trace) (id : NodeId) :
    Breaks protocol trace (trace.record (.begins id)) :=
  of_event (.begins id .refl) (events_record _ _) (by simp)

private theorem emit (trace : Trace) {opcode : Opcode} (plain : opcode.Plain protocol) :
    Breaks protocol trace (trace.emit opcode) :=
  of_event (.emit plain .refl) (events_emit _ _) (by simp)

private theorem remember (trace : Trace) (key : Option MemoKey) :
    Breaks protocol trace (trace.remember protocol key) :=
  of_event (.remember key .refl) (events_remember _ _ _) (by simp)

private theorem emitAll (trace : Trace) {opcodes : List Opcode}
    (plain : ∀ opcode ∈ opcodes, opcode.Plain protocol) :
    Breaks protocol trace (trace.emitAll opcodes) := by
  induction opcodes generalizing trace with
  | nil => exact refl trace
  | cons opcode rest induction =>
      have parts := List.forall_mem_cons.1 plain
      exact (emit trace parts.1).trans (induction _ parts.2)

/-- A place where a frame may end, and an object behind it. -/
theorem item (placed : Placed protocol (first.record .split) second)
    (inside : Breaks protocol (first.record .split) second) : Breaks protocol first second where
  grows := (Grows.split .refl).trans inside.grows
  objects whole index later split := by
    have length : (first.record .split).events.length = first.events.length + 1 := by simp
    by_cases here : index = first.events.length
    · exact ⟨first.record .split, second, whole.split, by rw [length, here], placed, .refl⟩
    · exact inside.objects whole.split index (by omega) split

private theorem text (trace : Trace) (content : String) :
    Breaks protocol trace (trace.emit (protocol.textOpcode content)) :=
  emit trace (protocol.textOpcode_plain content)

private theorem freshText (trace : Trace) (content : String) :
    Breaks protocol trace (trace.freshText protocol content) :=
  (text trace content).trans (remember _ _)

private theorem fetchOr (trace : Trace) {key : MemoKey} {write : Trace → Trace}
    (written : Breaks protocol trace (write trace)) :
    Breaks protocol trace (trace.fetchOr protocol key write) := by
  rw [Trace.fetchOr]
  split
  · exact emit trace (protocol.getOpcode_plain _)
  · exact written

private theorem sharedText (trace : Trace) (content : String) :
    Breaks protocol trace (trace.sharedText protocol content) :=
  fetchOr trace ((text trace content).trans (remember _ _))

private theorem callable (trace : Trace) (callable : Callable) :
    Breaks protocol trace (trace.callable protocol callable) := by
  refine fetchOr trace (trans ?_ (remember _ _))
  split
  · rename_i recent
    have stackGlobal : Opcode.stackGlobal.Plain protocol := .bare recent rfl trivial rfl rfl
    have fresh (trace : Trace) (content : String) :
        Breaks protocol trace ((trace.record .split).freshText protocol content) :=
      item (placed_freshText _ _) (freshText _ _)
    have shared (trace : Trace) (content : String) :
        Breaks protocol trace ((trace.record .split).sharedText protocol content) :=
      item (placed_sharedText _ _) (sharedText _ _)
    refine trans ?_ (emit _ stackGlobal)
    refine trans ?_ (fresh _ _)
    split
    · exact fresh _ _
    · exact shared _ _
  · exact emit trace (protocol.globalOpcode_plain callable)

private theorem endTuple (trace : Trace) (id : NodeId) (count : Nat) :
    Breaks protocol trace (trace.endTuple protocol id count) := by
  rw [Trace.endTuple]
  split
  · exact (emitAll trace (protocol.dropOpcodes_plain count)).trans
      (emit _ (protocol.getOpcode_plain _))
  · exact (emit trace (protocol.tupleOpcode_plain count)).trans (remember _ _)

variable (writes : ∀ {id trace final}, writeNode graph protocol depth id trace = .complete final →
  Breaks protocol trace final)

include writes

private theorem perform {id : NodeId} {node : Node} {step : Step}
    (planned : Protocol.Planned protocol id node step) (other : step ≠ .split)
    (performed : first.perform protocol (writeNode graph protocol depth) step =
      .complete second) : Breaks protocol first second := by
  rcases planned with (glue | inside) | _ | count
  · cases glue with
    | split => exact absurd rfl other
    | op plain =>
        cases performed
        exact emit first plain
    | fresh =>
        cases performed
        exact remember first none
    | sharedText content =>
        cases performed
        exact sharedText first content
    | callable called =>
        cases performed
        exact callable first called
  · exact writes performed
  · cases performed
    exact remember first _
  · cases performed
    exact endTuple first _ count

private theorem performAll {id : NodeId} {node : Node} {steps : List Step}
    (itemized : Walk.Itemized protocol (writeNode graph protocol depth) steps)
    (planned : ∀ step ∈ steps, Protocol.Planned protocol id node step)
    (performed : performAll protocol (writeNode graph protocol depth) steps first =
      .complete second) : Breaks protocol first second := by
  induction itemized generalizing first second with
  | nil =>
      cases performed
      exact refl first
  | step other _ induction =>
      have parts := List.forall_mem_cons.1 planned
      rcases performAll_cons.1 performed with ⟨middle, performedStep, performed⟩
      exact (perform writes parts.1 other performedStep).trans (induction parts.2 performed)
  | item puts _ _ induction rest =>
      have parts := List.forall_mem_append.1 (List.forall_mem_cons.1 planned).2
      rcases performAll_cons.1 performed with ⟨split, performedStep, performed⟩
      cases performedStep
      rcases performAll_append.1 performed with ⟨middle, performedItem, performed⟩
      exact (item (placed_of_puts puts performedItem) (induction parts.1 performedItem)).trans
        (rest parts.2 performed)

end Breaks

private theorem breaks_writeNode {id : NodeId} {trace final : Trace}
    (complete : writeNode graph protocol depth id trace = .complete final) :
    Breaks protocol trace final := by
  refine writeNode_induction (motive := fun _ trace final => Breaks protocol trace final)
    ?_ ?_ complete
  · intro id trace slot _
    exact (Breaks.begins trace id).trans (.emit _ (protocol.getOpcode_plain slot))
  · intro depth id node steps trace final writes _ _ plan performed
    have nodes (id : NodeId) : Walk.Puts protocol (writeNode graph protocol depth) 1 [.node id] :=
      Walk.puts_node (fun leaves written => leaves.writeNode written) id
    exact (Breaks.begins trace id).trans
      (.performAll writes (.plan nodes plan) (Protocol.planned_of_mem_plan plan) performed)

/-- The opcodes in front of a place of the events, and those behind it. -/
theorem opcodes_eq (trace : Trace) (index : Nat) : trace.opcodes =
    (trace.events.take index).filterMap Event.opcode? ++
      (trace.events.drop index).filterMap Event.opcode? := by
  rw [← List.filterMap_append, List.take_append_drop]
  rfl

/-- What stands in front of a `.split` and behind it in a trace that goes on from there. -/
private theorem take_drop_of_split {begun trace : Trace} {index : Nat} {later : List Event}
    (length : begun.events.length = index + 1) (split : trace.events[index]? = some .split)
    (whole : trace.events = begun.events ++ later) :
    begun.events = trace.events.take index ++ [.split] ∧
      trace.events.drop index = .split :: later := by
  have taken : begun.events = trace.events.take index ++ [.split] := by
    have first : trace.events.take (index + 1) = begun.events := by
      rw [whole]
      exact List.take_left' length
    rw [← first, List.take_add_one, split]
    rfl
  have same : trace.events.take index ++ trace.events.drop index =
      trace.events.take index ++ .split :: later := by
    rw [List.take_append_drop, List.append_cons, ← taken, whole]
  exact ⟨taken, List.append_cancel_left same⟩

/-- Where an object begins in a trace that is walked through to its end, one begins for the walk. -/
private theorem ObjectAt.startsObject {trace : Trace} {index : Nat} (recent : 4 ≤ protocol.version)
    (object : ObjectAt protocol trace index) (split : trace.events[index]? = some .split)
    {stack : List Walk.Place} (leaves : Walk.Leaves protocol trace stack) :
    Walk.StartsObject protocol ((trace.events.take index).filterMap Event.opcode?)
      ((trace.events.drop index).filterMap Event.opcode?) := by
  rcases object with ⟨begun, done, grows, length, ⟨added, isDone, places⟩, rest⟩
  rcases rest.events with ⟨later, isTrace⟩
  rw [isDone, List.append_assoc] at isTrace
  rcases take_drop_of_split length split isTrace with ⟨taken, dropped⟩
  have before : begun.opcodes = (trace.events.take index).filterMap Event.opcode? := by
    rw [opcodes, taken, List.filterMap_append]
    exact List.append_nil _
  have after : (trace.events.drop index).filterMap Event.opcode? =
      added.filterMap Event.opcode? ++ later.filterMap Event.opcode? := by
    rw [dropped, ← List.filterMap_append]
    rfl
  rcases leaves with ⟨whole, along, -⟩
  have run := along.run
  rw [trace.opcodes_eq index, ← before, Walk.run?_append] at run
  rcases Option.bind_eq_some_iff.1 run with ⟨walk, run, -⟩
  rw [← before, after]
  refine ⟨walk, _, _, run, rfl, fun below => ?_⟩
  -- What an object is written as leaves what is below it alone, so that it may stand on any stack.
  have binary : protocol.version ≠ 0 := by omega
  rcases Walk.exists_along_stack binary (Walk.along_of_run? recent grows run) below with
      ⟨other, same, alongOther⟩
  rcases places other below same ⟨_, alongOther, rfl⟩ with ⟨final, isFinal, last, alongLast, top⟩
  have written : final.opcodes = other.opcodes ++ added.filterMap Event.opcode? := by
    rw [opcodes, isFinal, List.filterMap_append]
    rfl
  have runLast := alongLast.run
  rw [written, Walk.run?_append, alongOther.run, Option.bind_some] at runLast
  rcases last with ⟨stack, stored, phase⟩
  have ordinary : phase = .ordinary := alongLast.ordinary
  cases top
  cases ordinary
  exact ⟨stored, runLast⟩

end Trace

namespace Graph

variable {graph : Graph} {protocol : Protocol} {root : NodeId} {trace : Trace}

/-- Wherever a frame may end in the encoding of a value, an object begins. -/
theorem startsObject_of_split (recent : 4 ≤ protocol.version)
    (complete : graph.trace protocol root = .complete trace) {index : Nat}
    (split : trace.events[index]? = some .split) :
    Walk.StartsObject protocol ((trace.events.take index).filterMap Event.opcode?)
      ((trace.events.drop index).filterMap Event.opcode?) := by
  have performed : Trace.performAll protocol
      (Trace.writeNode graph protocol graph.depthBound) [.node root] Trace.start =
        .complete trace := Trace.performAll_cons.2 ⟨trace, complete, rfl⟩
  have puts : Walk.Puts protocol (Trace.writeNode graph protocol graph.depthBound) 1
      [.node root] := Walk.puts_node (fun leaves written => leaves.writeNode written) root
  have breaks : Trace.Breaks protocol {} trace :=
    .item (Trace.placed_of_puts puts performed) (Trace.breaks_writeNode complete)
  have start : Walk.Leaves protocol {} [] :=
    ⟨{}, ⟨rfl, rfl, Memo.faithful_empty, rfl, fun slot given => absurd given (by simp)⟩, rfl⟩
  exact (breaks.objects .refl index (Nat.zero_le _) split).startsObject recent split
    (start.split.writeNode complete)

end Graph

end PickleTrial
