import PickleTrial.Proofs.Decoding.Calls

/-! Containers that are filled in place. A container has its slot before its items are written, so
they may refer to it; until it is complete, it alone among the objects made so far changes. -/

namespace PickleTrial

open Machine (Value Object Entry)

namespace Machine

private theorem pairs?_append {first second : List Value} {entries added : List (Value × Value)}
    (isFirst : pairs? first = some entries) (isSecond : pairs? second = some added) :
    pairs? (first ++ second) = some (entries ++ added) := by
  induction first using pairs?.induct generalizing entries with
  | case1 =>
      cases isFirst
      exact isSecond
  | case2 key value rest induction =>
      rcases Option.map_eq_some_iff.1 isFirst with ⟨more, isRest, rfl⟩
      rw [List.cons_append, List.cons_append, pairs?, induction isRest]
      rfl
  | case3 => cases isFirst

private theorem exists_pairs? {values : List Value} (even : values.length % 2 = 0) :
    ∃ entries, pairs? values = some entries := by
  induction values using pairs?.induct with
  | case1 => exact ⟨[], rfl⟩
  | case2 key value rest induction =>
      rw [List.length_cons, List.length_cons] at even
      rcases induction (by omega) with ⟨entries, found⟩
      exact ⟨(key, value) :: entries, by rw [pairs?, found]; rfl⟩
  | case3 => cases even

end Machine

namespace Stage

/-- A kind of object that is filled in place. -/
structure Container where
  /-- The object with these values in it. -/
  make? : List Value → Option Object
  /-- The object with more values in it. -/
  add? : Object → List Value → Option Object
  /-- How many values one item is made of. -/
  group : Nat
  filled : ∀ {values object}, make? values = some object → isFilled object = true
  adds : ∀ {done values object}, make? done = some object → values.length % group = 0 →
    ∃ later, add? object values = some later ∧ make? (done ++ values) = some later

namespace Container

def list : Container where
  make? values := some (.list values)
  add? := Object.append?
  group := 1
  filled := by
    intro values object same
    cases same
    rfl
  adds := by
    intro done values object same _
    cases same
    exact ⟨_, rfl, rfl⟩

def set : Container where
  make? values := some (.set values)
  add? := Object.addItems?
  group := 1
  filled := by
    intro values object same
    cases same
    rfl
  adds := by
    intro done values object same _
    cases same
    exact ⟨_, rfl, rfl⟩

def dict : Container where
  make? values := (Machine.pairs? values).map .dict
  add? := Object.setItems?
  group := 2
  filled := by
    intro values object made
    rcases Option.map_eq_some_iff.1 made with ⟨entries, -, rfl⟩
    rfl
  adds := by
    intro done values object made even
    rcases Option.map_eq_some_iff.1 made with ⟨entries, isDone, rfl⟩
    rcases Machine.exists_pairs? even with ⟨added, isAdded⟩
    exact ⟨.dict (entries ++ added), by simp [Object.setItems?, isAdded],
      by simp [Machine.pairs?_append isDone isAdded]⟩

end Container

variable {graph : Graph} {protocol : Protocol} {write : NodeId → Trace → Trace.Outcome}
  {container : Container}

/-- A container with values in it. -/
def Container.of (container : Container) (contents : List (Content graph protocol)) :
    Product graph protocol :=
  .of contents container.make?

/-- A container is being filled. It was made at a stage, and stands on a stack; what else was made
since then is settled. -/
structure Filling (container : Container) (base : Stage) (stack : List Entry)
    (key : Option MemoKey) (contents : List (Content graph protocol)) (stage : Stage) : Prop where
  keeps : Keeps base stage
  frame : ∀ {address : Nat}, address < base.machine.heap.length →
    stage.machine.heap[address]? = base.machine.heap[address]?
  top : stage.machine.stack = .value (.object base.machine.heap.length) :: stack
  object : ∃ object, stage.machine.heap[base.machine.heap.length]? = some object ∧
    (container.of contents).Is stage object
  keyed : stage.trace.memo.slots[base.trace.memo.next]? = some key
  held : stage.machine.memo[base.trace.memo.next]? = some (.object base.machine.heap.length)
  settled : ∀ (slot : Nat) (id : NodeId), base.trace.memo.next < slot →
    stage.trace.memo.slots[slot]? = some (some (.node id)) →
    ∃ address object, base.machine.heap.length < address ∧
      stage.machine.memo[slot]? = some (.object address) ∧
      stage.machine.heap[address]? = some object ∧ Shows graph protocol stage id object

/-- Since a stage, a container was made, and these contents are in it by now. -/
def Opened (container : Container) (start : Stage) (stack : List Entry) (key : Option MemoKey)
    (contents : List (Content graph protocol)) (stage : Stage) : Prop :=
  ∃ base, Extends graph protocol start base ∧ Filling container base stack key contents stage

theorem Opened.close {start stage : Stage} {stack : List Entry} {key : Option MemoKey}
    {contents : List (Content graph protocol)} (fits : (container.of contents).Fits key)
    (opened : Opened container start stack key contents stage) :
    Above start stack [(container.of contents).keyed key] stage := by
  rcases opened with ⟨base, since, filling⟩
  rcases filling.object with ⟨object, found, is⟩
  have extends_ : Extends graph protocol base stage := {
    toKeeps := filling.keeps
    frame := filling.frame
    settled := fun slot id recent keyed => by
      rcases Nat.eq_or_lt_of_le recent with rfl | later
      · rw [filling.keyed, Option.some.injEq] at keyed
        exact ⟨_, object, Nat.le_refl _, filling.held, found, (fits _ keyed).2 is⟩
      · rcases filling.settled slot id later keyed with ⟨address, other, young, rest⟩
        exact ⟨address, other, Nat.le_of_lt young, rest⟩ }
  refine ⟨[_], since.trans extends_, filling.top, .cons ⟨⟨object, found, is⟩, ?_⟩ .nil⟩
  intro id same
  subst same
  rcases (fits _ rfl).1 with ⟨node, present, takesSlot⟩
  exact ⟨node, present, Or.inr ⟨takesSlot, _, filling.keyed, filling.held⟩⟩

/-- An opcode makes an empty container, which is given a slot. -/
theorem leads_open {before : Stage → Prop} {start : Stage} {stack : List Entry}
    {opcode : Opcode} {object : Object} (empty : container.make? [] = some object)
    {key : Option MemoKey}
    (ofNode : ∀ known, key = some known → ∃ id node, known = .node id ∧
      graph.node? id = some node ∧ node.takesSlot)
    (creates : ∀ {stage}, before stage → Extends graph protocol start stage ∧
      stage.machine.step? opcode =
        some (({ stage.machine with stack } : Machine).create object)) :
    Leads graph protocol write before [.op opcode, .remember key]
      (Opened container start stack key ([] : List (Content graph protocol))) where
  grows performed := by
    cases performed
    simp
  leads {stage _} follows holds room performed := by
    cases performed
    rcases creates holds with ⟨since, step⟩
    rw [Trace.memo_remember, Memo.next_take, Trace.memo_emit] at room
    have suits : ∀ known, key = some known → Suits graph (stage.machine.heap ++ [object]) known
        (.object stage.machine.heap.length) := by
      intro known same
      rcases ofNode known same with ⟨id, node, rfl, present, takesSlot⟩
      exact ⟨⟨_, rfl⟩, node, present, takesSlot⟩
    rcases follows.exists_created step (Nat.lt_of_succ_le room) protocol suits with
        ⟨machine, later, created⟩
    refine ⟨machine, later, stage, since, {
      keeps := created.keeps
      frame := fun old => by rw [created.heap, List.getElem?_append_left old]
      top := created.stack
      object := ⟨object, by rw [created.heap, List.getElem?_concat_length], [], empty, .nil⟩
      keyed := Memo.slots_take_next _ _
      held := by rw [created.memo, getElem?_insert_self]
      settled := fun slot id recent keyed => ?_ }⟩
    have bound := Memo.lt_next_of_slot keyed
    rw [Trace.memo_remember, Memo.next_take, Trace.memo_emit] at bound
    omega

/-! ## Filling -/

private theorem HeapKept.set {heap : List Object} {address : Nat} {object : Object}
    (found : heap[address]? = some object) (filled : isFilled object = true) (later : Object) :
    HeapKept heap (heap.set address later) where
  length := by rw [List.length_set]
  fixed {other known} isKnown plain := by
    have different : address ≠ other := by
      intro same
      subst same
      rw [found, Option.some.injEq] at isKnown
      rw [← isKnown, filled] at plain
      cases plain
    rw [List.getElem?_set_ne different, isKnown]

/-- What was made since the container is settled where the stream has gone on behind it. -/
private theorem Filling.settled_above {base stage above : Stage} {stack : List Entry}
    {key : Option MemoKey} {contents : List (Content graph protocol)}
    (filling : Filling container base stack key contents stage)
    (extends_ : Extends graph protocol stage above) {slot : Nat} {id : NodeId}
    (recent : base.trace.memo.next < slot)
    (keyed : above.trace.memo.slots[slot]? = some (some (.node id))) :
    ∃ address object, base.machine.heap.length < address ∧
      above.machine.memo[slot]? = some (.object address) ∧
      above.machine.heap[address]? = some object ∧ Shows graph protocol above id object := by
  rcases filling.object with ⟨made, found, -⟩
  have present := (List.getElem?_eq_some_iff.1 found).1
  by_cases new : stage.trace.memo.next ≤ slot
  · rcases extends_.settled slot id new keyed with ⟨address, object, young, rest⟩
    exact ⟨address, object, Nat.lt_of_lt_of_le present young, rest⟩
  · have known := extends_.slot_of_lt (Nat.lt_of_not_le new) keyed
    rcases filling.settled slot id recent known with
      ⟨address, object, young, inSlot, isObject, shows⟩
    refine ⟨address, object, young, extends_.memo inSlot, ?_, shows.kept extends_.toKeeps⟩
    rw [extends_.frame (List.getElem?_eq_some_iff.1 isObject).1, isObject]

/-- Values put above a container that is being filled are added to it. -/
private theorem Filling.extend {base stage above : Stage} {stack : List Entry}
    {key : Option MemoKey} {done contents : List (Content graph protocol)}
    (filling : Filling container base stack key done stage)
    (firmDone : ∀ content ∈ done, content.Firm) (firm : ∀ content ∈ contents, content.Firm)
    (grouped : contents.length % container.group = 0)
    (extends_ : Extends graph protocol stage above) {values : List Value}
    (hold : Content.HoldAll contents above values) (follows : Follows graph above)
    {opcode : Opcode}
    (step : above.machine.step? opcode =
      above.machine.extend? container.add? (some (values, stage.machine.stack))) :
    ∃ machine, Follows graph ⟨above.trace.emit opcode, machine⟩ ∧
      Filling container base stack key (done ++ contents)
        ⟨above.trace.emit opcode, machine⟩ := by
  rcases filling.object with ⟨object, found, existing, made, holdDone⟩
  have present := (List.getElem?_eq_some_iff.1 found).1
  have still : above.machine.heap[base.machine.heap.length]? = some object := by
    rw [extends_.frame present, found]
  have counted : values.length % container.group = 0 := by rwa [← hold.length_eq]
  rcases container.adds made counted with ⟨later, added, complete⟩
  have kept := HeapKept.set still (container.filled made) later
  rw [filling.top] at step
  simp only [Machine.extend?, still, Option.bind_some, added, Option.map_some] at step
  have next := follows.emit step rfl kept
  -- The step replaces the container in the heap, so what stands at other addresses is as before.
  have keeps : Keeps above ⟨above.trace.emit opcode, { above.machine with
      stack := .value (.object base.machine.heap.length) :: stack
      heap := above.machine.heap.set base.machine.heap.length later }⟩ := ⟨id, id, kept⟩
  have apart {address : Nat} (different : base.machine.heap.length ≠ address) :
      (above.machine.heap.set base.machine.heap.length later)[address]? =
        above.machine.heap[address]? := List.getElem?_set_ne different
  refine ⟨_, next, {
    keeps := (filling.keeps.trans extends_.toKeeps).trans keeps
    frame := fun old => ?frame
    top := rfl
    object := ⟨later, ?object, existing ++ values, complete, ?hold⟩
    keyed := extends_.slots filling.keyed
    held := extends_.memo filling.held
    settled := fun slot id recent keyed => ?settled }⟩
  case frame =>
    rw [apart (Nat.ne_of_gt old), extends_.frame (Nat.lt_trans old present), filling.frame old]
  case object =>
    exact List.getElem?_set_self (List.getElem?_eq_some_iff.1 still).1
  case hold =>
    exact List.rel_append ((holdDone.lasts extends_).firm firmDone keeps) (hold.firm firm keeps)
  case settled =>
    rcases filling.settled_above extends_ recent keyed with
      ⟨address, other, young, inSlot, isOther, shows⟩
    refine ⟨address, other, young, inSlot, ?_, shows.kept keeps⟩
    rw [apart (Nat.ne_of_lt young), isOther]

/-- Values are put above a container that is being filled, possibly behind a mark. -/
def Adding (container : Container) (start : Stage) (stack : List Entry) (key : Option MemoKey)
    (done : List (Content graph protocol)) (behind : List Entry → List Entry)
    (contents : List (Content graph protocol)) (stage : Stage) : Prop :=
  ∃ base middle, Extends graph protocol start base ∧
    Filling container base stack key done middle ∧
    Above middle (behind middle.machine.stack) contents stage

section Adding

variable {start : Stage} {stack : List Entry} {key : Option MemoKey}
  {done contents : List (Content graph protocol)} {behind : List Entry → List Entry}

private theorem Opened.adding {stage : Stage}
    (opened : Opened container start stack key done stage) :
    Adding container start stack key done id [] stage := by
  rcases opened with ⟨base, since, filling⟩
  exact ⟨base, stage, since, filling, above_refl stage⟩

private theorem leads_adding {more : List (Content graph protocol)} {steps : List Step}
    (puts : Puts graph protocol write more steps) :
    Leads graph protocol write (Adding container start stack key done behind contents) steps
      (Adding container start stack key done behind (contents ++ more)) where
  grows := (puts ⟨{}, {}⟩ [] []).grows
  leads follows adding room performed := by
    rcases adding with ⟨base, middle, since, filling, above⟩
    rcases (puts middle _ contents).leads follows above room performed with
        ⟨machine, follows, above⟩
    exact ⟨machine, follows, base, middle, since, filling, above⟩

private theorem leads_adding_mark :
    Leads graph protocol write (Adding container start stack key done id []) [.op .mark]
      (Adding container start stack key done (.mark :: ·) []) where
  grows performed := by
    cases performed
    exact Nat.le_refl _
  leads follows adding room performed := by
    rcases adding with ⟨base, middle, since, filling, above⟩
    rcases leads_mark.leads follows above room performed with ⟨machine, follows, above⟩
    exact ⟨machine, follows, base, middle, since, filling, above⟩

/-- An opcode that adds all values above a container, or above a mark above it. -/
def Extending (container : Container) (behind : List Entry → List Entry) (count : Nat)
    (opcode : Opcode) : Prop :=
  ∀ {machine : Machine} {values : List Value} {below : List Entry}, values.length = count →
    machine.stack = Machine.pushAll values (behind below) →
    machine.step? opcode = machine.extend? container.add? (some (values, below))

private theorem leads_extend {opcode : Opcode}
    (extending : Extending container behind contents.length opcode)
    (firmDone : ∀ content ∈ done, content.Firm) (firm : ∀ content ∈ contents, content.Firm)
    (grouped : contents.length % container.group = 0) :
    Leads graph protocol write (Adding container start stack key done behind contents)
      [.op opcode] (Opened container start stack key (done ++ contents)) :=
  .step
    (fun performed => by
      cases performed
      exact Nat.le_refl _)
    fun follows adding _ performed => by
      cases performed
      rcases adding with ⟨base, middle, since, filling, values, extends_, whole, hold⟩
      have step := extending hold.length_eq.symm whole
      rcases filling.extend firmDone firm grouped extends_ hold follows step with
          ⟨machine, later, filled⟩
      exact ⟨machine, later, base, since, filled⟩

end Adding

/-! ## Batches -/

/-- An item of a container: the contents of its values, and the steps that put them. -/
abbrev Item (graph : Graph) (protocol : Protocol) :=
  List (Content graph protocol) × List Step

/-- Items that a container is filled with. -/
def Fills (graph : Graph) (protocol : Protocol) (write : NodeId → Trace → Trace.Outcome)
    (container : Container) (items : List (Item graph protocol)) : Prop :=
  ∀ item ∈ items, Puts graph protocol write item.1 item.2 ∧ item.1.length = container.group ∧
    ∀ content ∈ item.1, content.Firm

def contentsOf (items : List (Item graph protocol)) : List (Content graph protocol) :=
  items.flatMap Prod.fst

private theorem Fills.firm {items : List (Item graph protocol)}
    (fills : Fills graph protocol write container items) :
    ∀ content ∈ contentsOf items, content.Firm := by
  intro content member
  rcases List.mem_flatMap.1 member with ⟨item, listed, inside⟩
  exact (fills item listed).2.2 content inside

theorem Fills.length {items : List (Item graph protocol)}
    (fills : Fills graph protocol write container items) :
    (contentsOf items).length = items.length * container.group := by
  induction items with
  | nil => simp [contentsOf]
  | cons item rest induction =>
      have parts := List.forall_mem_cons.1 fills
      have later := induction parts.2
      rw [contentsOf] at later ⊢
      rw [List.flatMap_cons, List.length_append, parts.1.2.1, later, List.length_cons,
        Nat.succ_mul, Nat.add_comm]

theorem Fills.puts {items : List (Item graph protocol)}
    (fills : Fills graph protocol write container items) :
    Puts graph protocol write (contentsOf items) (items.map Prod.snd).flatten := by
  induction items with
  | nil => exact .nil
  | cons item rest induction =>
      have parts := List.forall_mem_cons.1 fills
      exact parts.1.1.append (induction parts.2)

end Stage

/-! ## Items in batches -/

namespace Stage

variable {graph : Graph} {protocol : Protocol} {write : NodeId → Trace → Trace.Outcome}
  {container : Container} {start : Stage} {stack : List Entry} {key : Option MemoKey}
  {done : List (Content graph protocol)}

/-- The opcodes that add items to a container: one item, where that is allowed, or a batch behind a
mark. -/
structure Adds (container : Container) (single : Option Opcode)
    (several : Opcode) : Prop where
  oneByOne : ∀ opcode ∈ single, Extending container id container.group opcode
  together : ∀ count, Extending container (.mark :: ·) count several

private theorem leads_batchSteps {batch : List (Item graph protocol)} {single : Option Opcode}
    {several : Opcode} (adds : Adds container single several)
    (fills : Fills graph protocol write container batch)
    (firmDone : ∀ content ∈ done, content.Firm) :
    Leads graph protocol write (Opened container start stack key done)
      (Protocol.batchSteps single several (batch.map Prod.snd))
      (Opened container start stack key (done ++ contentsOf batch)) := by
  unfold Protocol.batchSteps
  split
  · rename_i steps single isSingle
    rcases List.map_eq_singleton_iff.1 isSingle with ⟨item, rfl, rfl⟩
    have parts := fills item List.mem_cons_self
    have grouped : item.1.length % container.group = 0 := by rw [parts.2.1, Nat.mod_self]
    have extending : Extending container id item.1.length single := by
      rw [parts.2.1]
      exact adds.oneByOne single rfl
    have put : Leads graph protocol write (Adding container start stack key done id []) item.2
        (Adding container start stack key done id item.1) := leads_adding parts.1
    rw [contentsOf, List.flatMap_singleton]
    exact (put.append (leads_extend extending firmDone parts.2.2 grouped)).strengthen
      Opened.adding
  · have grouped : (contentsOf batch).length % container.group = 0 := by
      rw [fills.length, Nat.mul_mod_left]
    have put : Leads graph protocol write (Adding container start stack key done (.mark :: ·) [])
        (batch.map Prod.snd).flatten
        (Adding container start stack key done (.mark :: ·) (contentsOf batch)) :=
      leads_adding fills.puts
    exact ((leads_adding_mark.cons put).append
      (leads_extend (adds.together _) firmDone fills.firm grouped)).strengthen Opened.adding

private theorem leads_blocks {α : Type} {blocks : List α} {steps : α → List Step}
    {contents : α → List (Content graph protocol)}
    (firm : ∀ block ∈ blocks, ∀ content ∈ contents block, content.Firm)
    (each : ∀ block ∈ blocks, ∀ done : List (Content graph protocol),
      (∀ content ∈ done, content.Firm) →
      Leads graph protocol write (Opened container start stack key done) (steps block)
        (Opened container start stack key (done ++ contents block)))
    (firmDone : ∀ content ∈ done, content.Firm) :
    Leads graph protocol write (Opened container start stack key done) (blocks.flatMap steps)
      (Opened container start stack key (done ++ blocks.flatMap contents)) := by
  induction blocks generalizing done with
  | nil =>
      rw [List.flatMap_nil, List.flatMap_nil, List.append_nil]
      exact .nil
  | cons block rest induction =>
      have parts := List.forall_mem_cons.1 each
      have firmParts := List.forall_mem_cons.1 firm
      have more : ∀ content ∈ done ++ contents block, content.Firm :=
        List.forall_mem_append.2 ⟨firmDone, firmParts.1⟩
      rw [List.flatMap_cons, List.flatMap_cons, ← List.append_assoc]
      exact (parts.1 done firmDone).append (induction firmParts.2 parts.2 more)

theorem leads_additions {items : List (Item graph protocol)} {single : Option Opcode}
    {several : Opcode} (adds : Adds container single several)
    (fills : Fills graph protocol write container items) :
    Leads graph protocol write
      (Opened container start stack key ([] : List (Content graph protocol)))
      (protocol.additions single several (items.map Prod.snd))
      (Opened container start stack key (contentsOf items)) := by
  rcases protocol.inBatches_or_oneByOne single with inBatches | ⟨single, oldest, rfl⟩
  · have inBatch {batch : List (Item graph protocol)} (listed : batch ∈ Protocol.batches items) :
        Fills graph protocol write container batch := fun item inside =>
      fills item (Protocol.mem_of_mem_batches listed inside)
    have whole : contentsOf items = (Protocol.batches items).flatMap contentsOf := by
      conv => lhs; rw [← Protocol.flatten_batches items]
      simp only [contentsOf, List.flatMap_def, List.map_flatten, List.flatten_flatten, List.map_map]
      rfl
    rw [Protocol.additions_inBatches inBatches, Protocol.batches_map, List.flatMap_map, whole]
    exact leads_blocks (fun batch listed => (inBatch listed).firm)
      (fun batch listed done firm => leads_batchSteps adds (inBatch listed) firm) (by simp)
  · rw [Protocol.additions_oneByOne oldest, List.flatMap_map]
    refine leads_blocks (fun item listed => (fills item listed).2.2) ?_ (by simp)
    intro item listed done firm
    have inItem : Fills graph protocol write container [item] := by
      intro other member
      rw [List.mem_singleton.1 member]
      exact fills item listed
    have whole : item.1 = contentsOf [item] := by simp [contentsOf]
    rw [whole]
    exact leads_batchSteps adds inItem firm

end Stage

end PickleTrial
