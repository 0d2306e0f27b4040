import PickleTrial.Proofs.Decoding.Stage

/-! What steps leave on the stack of the machine: values, each with the content it was written
for. -/

namespace PickleTrial

open Machine (Value Object Entry)

namespace Stage

variable {graph : Graph} {protocol : Protocol} {write : NodeId → Trace → Trace.Outcome}

/-- What a value is to be at a stage. It stays so at every stage that extends it. -/
structure Content (graph : Graph) (protocol : Protocol) where
  Holds : Stage → Value → Prop
  lasts : ∀ {before after value}, Extends graph protocol before after → Holds before value →
    Holds after value

namespace Content

/-- A content that stays even where objects are filled. -/
def Firm (content : Content graph protocol) : Prop :=
  ∀ before after value, Keeps before after → content.Holds before value →
    content.Holds after value

def HoldAll (contents : List (Content graph protocol)) (stage : Stage) (values : List Value) :
    Prop :=
  List.Forall₂ (fun content value => content.Holds stage value) contents values

theorem HoldAll.lasts {contents : List (Content graph protocol)} {before after : Stage}
    {values : List Value} (hold : HoldAll contents before values)
    (extends_ : Extends graph protocol before after) : HoldAll contents after values :=
  hold.imp fun content _ holds => content.lasts extends_ holds

theorem HoldAll.firm {contents : List (Content graph protocol)}
    (firm : ∀ content ∈ contents, content.Firm) {before after : Stage} {values : List Value}
    (hold : HoldAll contents before values) (keeps : Keeps before after) :
    HoldAll contents after values := by
  induction hold with
  | nil => exact .nil
  | cons holds _ induction =>
      have parts := List.forall_mem_cons.1 firm
      exact .cons (parts.1 _ _ _ keeps holds) (induction parts.2)

def exactly (value : Value) : Content graph protocol where
  Holds _ other := other = value
  lasts _ holds := holds

/-- What the node is read as. -/
def denotes (graph : Graph) (protocol : Protocol) (id : NodeId) : Content graph protocol where
  Holds stage value := Denotes graph protocol stage id value
  lasts extends_ holds := holds.kept extends_.toKeeps

theorem firm_exactly (value : Value) : (exactly value : Content graph protocol).Firm :=
  fun _ _ _ _ holds => holds

theorem firm_denotes (id : NodeId) : (denotes graph protocol id).Firm :=
  fun _ _ _ keeps holds => holds.kept keeps

end Content

/-- What an object is to be at a stage. -/
structure Product (graph : Graph) (protocol : Protocol) where
  Is : Stage → Object → Prop
  lasts : ∀ {before after object}, Extends graph protocol before after → Is before object →
    Is after object

namespace Product

def exactly (object : Object) : Product graph protocol where
  Is _ other := other = object
  lasts _ is := is

/-- An object that holds values with these contents. -/
def of (contents : List (Content graph protocol)) (make? : List Value → Option Object) :
    Product graph protocol where
  Is stage object := ∃ values, make? values = some object ∧ Content.HoldAll contents stage values
  lasts := fun extends_ ⟨values, made, hold⟩ => ⟨values, made, hold.lasts extends_⟩

def content (product : Product graph protocol) : Content graph protocol where
  Holds stage value := ∃ object, Machine.object? stage.machine.heap value = some object ∧
    product.Is stage object
  lasts := by
    intro before after value extends_ given
    rcases given with ⟨object, found, is⟩
    refine ⟨object, ?_, product.lasts extends_ is⟩
    cases value with
    | object address =>
        exact (extends_.frame (List.getElem?_eq_some_iff.1 found).1).trans found
    | _ => cases found

/-- The value is such an object, and what the node is read as if its key is the node's. -/
def keyed (product : Product graph protocol) (key : Option MemoKey) : Content graph protocol where
  Holds stage value := product.content.Holds stage value ∧
    ∀ id, key = some (.node id) → Denotes graph protocol stage id value
  lasts extends_ holds := ⟨product.content.lasts extends_ holds.1,
    fun id same => (holds.2 id same).kept extends_.toKeeps⟩

private theorem firm_content_exactly {object : Object} (plain : isFilled object = false) :
    (exactly object : Product graph protocol).content.Firm := by
  intro before after value keeps given
  rcases given with ⟨_, found, rfl⟩
  refine ⟨_, ?_, rfl⟩
  cases value with
  | object address => exact keeps.heap.fixed found plain
  | _ => cases found

/-- Such an object may have a slot with the key: it shows the node of the key, or is the text. -/
def FitsKey (product : Product graph protocol) : MemoKey → Prop
  | .node id => (∃ node, graph.node? id = some node ∧ node.takesSlot) ∧
      ∀ {stage object}, product.Is stage object → Shows graph protocol stage id object
  | .text content => ∀ {stage object}, product.Is stage object → object = .text content
  | .callable _ => False

def Fits (product : Product graph protocol) (key : Option MemoKey) : Prop :=
  ∀ known, key = some known → product.FitsKey known

theorem fits_none (product : Product graph protocol) : product.Fits none := by
  intro known same
  cases same

private theorem FitsKey.suits {product : Product graph protocol} {key : MemoKey}
    (fits : product.FitsKey key) {stage : Stage} {object : Object} (is : product.Is stage object)
    (heap : List Object) :
    Suits graph (heap ++ [object]) key (.object heap.length) := by
  cases key with
  | node id => exact ⟨⟨_, rfl⟩, fits.1⟩
  | text content =>
      rw [fits is]
      simp [Suits, Machine.textOf?, Machine.object?, Machine.Object.text?]
  | callable => exact fits.elim

end Product

/-! ## Steps -/

/-- Since a stage, values with these contents were put on a stack, and nothing else there was
changed. -/
def Above (start : Stage) (stack : List Entry) (contents : List (Content graph protocol))
    (stage : Stage) : Prop :=
  ∃ values, Extends graph protocol start stage ∧
    stage.machine.stack = Machine.pushAll values stack ∧ Content.HoldAll contents stage values

/-- Steps that take the machine from one kind of stage to another, as long as the slots do not
run out. -/
structure Leads (graph : Graph) (protocol : Protocol) (write : NodeId → Trace → Trace.Outcome)
    (before : Stage → Prop) (steps : List Step) (after : Stage → Prop) : Prop where
  grows : ∀ {trace final}, Trace.performAll protocol write steps trace = .complete final →
    trace.memo.next ≤ final.memo.next
  leads : ∀ {stage final}, Follows graph stage → before stage → final.memo.next ≤ 2 ^ 32 →
    Trace.performAll protocol write steps stage.trace = .complete final →
    ∃ machine, Follows graph ⟨final, machine⟩ ∧ after ⟨final, machine⟩

/-- Steps that put values with these contents on top, whatever stands below. -/
def Puts (graph : Graph) (protocol : Protocol) (write : NodeId → Trace → Trace.Outcome)
    (contents : List (Content graph protocol)) (steps : List Step) : Prop :=
  ∀ (start : Stage) (stack : List Entry) (done : List (Content graph protocol)),
    Leads graph protocol write (Above start stack done) steps
      (Above start stack (done ++ contents))

theorem above_refl (stage : Stage) :
    Above stage stage.machine.stack ([] : List (Content graph protocol)) stage :=
  ⟨[], .refl stage, rfl, .nil⟩

private theorem Above.append {start middle final : Stage} {stack : List Entry}
    {first second : List (Content graph protocol)} (below : Above start stack first middle)
    (above : Above middle middle.machine.stack second final) :
    Above start stack (first ++ second) final := by
  rcases below with ⟨values, extends_, whole, hold⟩
  rcases above with ⟨more, later, top, holdMore⟩
  refine ⟨values ++ more, extends_.trans later, ?_,
    List.rel_append (hold.lasts later) holdMore⟩
  rw [Machine.pushAll_append, ← whole, top]

section Rules

variable {before middle after : Stage → Prop} {steps rest : List Step}
  {contents : List (Content graph protocol)}

namespace Leads

theorem nil : Leads graph protocol write before [] before where
  grows performed := by
    cases performed
    exact Nat.le_refl _
  leads follows holds _ performed := by
    cases performed
    exact ⟨_, follows, holds⟩

theorem append (first : Leads graph protocol write before steps middle)
    (second : Leads graph protocol write middle rest after) :
    Leads graph protocol write before (steps ++ rest) after where
  grows performed := by
    rcases Trace.performAll_append.1 performed with ⟨between, performedFirst, performedSecond⟩
    exact Nat.le_trans (first.grows performedFirst) (second.grows performedSecond)
  leads follows holds room performed := by
    rcases Trace.performAll_append.1 performed with ⟨between, performedFirst, performedSecond⟩
    have roomFirst := Nat.le_trans (second.grows performedSecond) room
    rcases first.leads follows holds roomFirst performedFirst with ⟨machine, follows, holds⟩
    exact second.leads follows holds room performedSecond

theorem cons {step : Step} (first : Leads graph protocol write before [step] middle)
    (second : Leads graph protocol write middle rest after) :
    Leads graph protocol write before (step :: rest) after :=
  first.append second

theorem weaken {weaker : Stage → Prop} (leads : Leads graph protocol write before steps after)
    (implies : ∀ {stage}, after stage → weaker stage) :
    Leads graph protocol write before steps weaker where
  grows := leads.grows
  leads follows holds room performed := by
    rcases leads.leads follows holds room performed with ⟨machine, follows, holds⟩
    exact ⟨machine, follows, implies holds⟩

theorem strengthen {stronger : Stage → Prop}
    (leads : Leads graph protocol write before steps after)
    (implies : ∀ {stage}, stronger stage → before stage) :
    Leads graph protocol write stronger steps after where
  grows := leads.grows
  leads follows holds := leads.leads follows (implies holds)

theorem step {step : Step}
    (grows : ∀ {trace final : Trace}, trace.perform protocol write step = .complete final →
      trace.memo.next ≤ final.memo.next)
    (leads : ∀ {stage : Stage} {final : Trace}, Follows graph stage → before stage →
      final.memo.next ≤ 2 ^ 32 → stage.trace.perform protocol write step = .complete final →
      ∃ machine, Follows graph ⟨final, machine⟩ ∧ after ⟨final, machine⟩) :
    Leads graph protocol write before [step] after where
  grows performed := by
    rcases Trace.performAll_cons.1 performed with ⟨between, performedStep, done⟩
    cases done
    exact grows performedStep
  leads follows holds room performed := by
    rcases Trace.performAll_cons.1 performed with ⟨between, performedStep, done⟩
    cases done
    exact leads follows holds room performedStep

end Leads

namespace Puts

private theorem of_stage
    (grows : ∀ {trace final}, Trace.performAll protocol write steps trace = .complete final →
      trace.memo.next ≤ final.memo.next)
    (puts : ∀ {stage : Stage} {final}, Follows graph stage → final.memo.next ≤ 2 ^ 32 →
      Trace.performAll protocol write steps stage.trace = .complete final →
      ∃ machine, Follows graph ⟨final, machine⟩ ∧
        Above stage stage.machine.stack contents ⟨final, machine⟩) :
    Puts graph protocol write contents steps := fun _ _ _ => {
  grows := grows
  leads := fun follows below room performed => by
    rcases puts follows room performed with ⟨machine, follows, above⟩
    exact ⟨machine, follows, below.append above⟩ }

theorem nil : Puts graph protocol write [] [] := fun _ _ done => by
  rw [List.append_nil]
  exact .nil

theorem append {more : List (Content graph protocol)}
    (first : Puts graph protocol write contents steps)
    (second : Puts graph protocol write more rest) :
    Puts graph protocol write (contents ++ more) (steps ++ rest) := fun start stack done => by
  rw [← List.append_assoc]
  exact (first start stack done).append (second start stack _)

theorem of_step {step : Step}
    (grows : ∀ {trace final : Trace}, trace.perform protocol write step = .complete final →
      trace.memo.next ≤ final.memo.next)
    (puts : ∀ {stage : Stage} {final}, Follows graph stage → final.memo.next ≤ 2 ^ 32 →
      stage.trace.perform protocol write step = .complete final →
      ∃ machine, Follows graph ⟨final, machine⟩ ∧
        Above stage stage.machine.stack contents ⟨final, machine⟩) :
    Puts graph protocol write contents [step] := fun _ _ _ =>
  .step grows fun follows below room performed => by
    rcases puts follows room performed with ⟨machine, follows, above⟩
    exact ⟨machine, follows, below.append above⟩

theorem exists_above (puts : Puts graph protocol write contents steps) {stage : Stage}
    {final : Trace} (follows : Follows graph stage) (room : final.memo.next ≤ 2 ^ 32)
    (performed : Trace.performAll protocol write steps stage.trace = .complete final) :
    ∃ machine, Follows graph ⟨final, machine⟩ ∧
      Above stage stage.machine.stack contents ⟨final, machine⟩ :=
  (puts stage stage.machine.stack []).leads follows (above_refl stage) room performed

theorem of_leads
    (leads : ∀ start : Stage, Leads graph protocol write
      (Above start start.machine.stack ([] : List (Content graph protocol))) steps
      (Above start start.machine.stack contents)) :
    Puts graph protocol write contents steps :=
  of_stage (fun performed => (leads ⟨{}, {}⟩).grows performed) fun follows room performed =>
    (leads _).leads follows (above_refl _) room performed

end Puts

end Rules

/-! ## Opcodes -/

theorem Extends.aside {stage : Stage} {trace : Trace} {machine : Machine}
    (memo : trace.memo = stage.trace.memo) (held : machine.memo = stage.machine.memo)
    (heap : machine.heap = stage.machine.heap) :
    Extends graph protocol stage ⟨trace, machine⟩ where
  slots taken := memo ▸ taken
  memo found := held ▸ found
  heap := heap ▸ .refl _
  frame _ := by rw [heap]
  settled := settled_of_next_le (by rw [memo])

theorem leads_split {start : Stage} {stack : List Entry}
    {contents : List (Content graph protocol)} :
    Leads graph protocol write (Above start stack contents) [.split]
      (Above start stack contents) :=
  .step
    (fun performed => by
      cases performed
      exact Nat.le_refl _)
    fun follows below _ performed => by
      cases performed
      rcases below with ⟨values, extends_, whole, hold⟩
      exact ⟨_, follows.split, values, extends_.trans (.aside rfl rfl rfl), whole,
        hold.lasts (.aside rfl rfl rfl)⟩

theorem leads_mark {start : Stage} {stack : List Entry} :
    Leads graph protocol write (Above start stack ([] : List (Content graph protocol)))
      [.op .mark] (Above start (.mark :: stack) ([] : List (Content graph protocol))) :=
  .step
    (fun performed => by
      cases performed
      exact Nat.le_refl _)
    fun follows below _ performed => by
      cases performed
      rcases below with ⟨_, extends_, whole, hold⟩
      cases hold
      refine ⟨_, follows.emit rfl rfl (.refl _), [], extends_.trans ?_, ?_, .nil⟩
      · exact .aside rfl rfl rfl
      · exact congrArg (Entry.mark :: ·) whole

theorem puts_scalar {opcode : Opcode} {value : Value}
    (found : Machine.scalar? opcode = some value) :
    Puts graph protocol write [Content.exactly value] [.op opcode] :=
  .of_stage
    (fun performed => by
      cases performed
      exact Nat.le_refl _)
    fun follows _ performed => by
      cases performed
      exact ⟨_, follows.emit (Machine.step?_scalar found _) rfl (.refl _), [value],
        .aside rfl rfl rfl, rfl, .cons rfl .nil⟩

/-! ## Objects -/

private theorem Follows.keeps_remember {stage : Stage} (follows : Follows graph stage)
    (value : Value) (key : Option MemoKey) :
    Keeps stage ⟨stage.trace.remember protocol key,
      { stage.machine with
        memo := stage.machine.memo.insert stage.trace.memo.next value }⟩ where
  slots taken := by
    rw [Trace.memo_remember, Memo.slots_take_of_lt _ _ (Memo.lt_next_of_slot taken), taken]
  memo {slot held} found := by
    have earlier : slot ≠ stage.trace.memo.next := by
      intro same
      subst same
      rw [follows.free (Nat.le_refl _)] at found
      cases found
    rw [getElem?_insert_of_ne earlier, found]
  heap := .refl _

/-- What is known of a stage at which an object was created and given the next slot. -/
structure Created (stage : Stage) (protocol : Protocol) (opcode : Opcode) (key : Option MemoKey)
    (object : Object) (stack : List Entry) (machine : Machine) : Prop where
  stack : machine.stack = .value (.object stage.machine.heap.length) :: stack
  heap : machine.heap = stage.machine.heap ++ [object]
  memo : machine.memo = stage.machine.memo.insert stage.trace.memo.next
    (.object stage.machine.heap.length)
  keeps : Keeps stage ⟨(stage.trace.emit opcode).remember protocol key, machine⟩

theorem Follows.exists_created {stage : Stage} (follows : Follows graph stage) {opcode : Opcode}
    {stack : List Entry} {object : Object}
    (step : stage.machine.step? opcode =
      some (({ stage.machine with stack } : Machine).create object))
    (room : stage.trace.memo.next < 2 ^ 32) (protocol : Protocol) {key : Option MemoKey}
    (suits : ∀ known, key = some known →
      Suits graph (stage.machine.heap ++ [object]) known (.object stage.machine.heap.length)) :
    ∃ machine, Follows graph ⟨(stage.trace.emit opcode).remember protocol key, machine⟩ ∧
      Created stage protocol opcode key object stack machine := by
  have created := follows.emit step rfl (.append _ [object])
  have unused (slot : Nat) : stage.machine.memo[slot]? ≠
      some (.object stage.machine.heap.length) := fun held =>
    Nat.lt_irrefl _ (follows.bounded held)
  refine ⟨_, created.remember rfl room suits ?_, rfl, rfl, rfl, ?_⟩
  · intro address same
    cases same
    exact ⟨by simp [Machine.create], unused⟩
  · have emitted : Keeps stage
        ⟨stage.trace.emit opcode, ({ stage.machine with stack } : Machine).create object⟩ :=
      ⟨id, id, .append _ _⟩
    exact emitted.trans (created.keeps_remember _ key)

theorem Follows.exists_product {stage : Stage} (follows : Follows graph stage) {opcode : Opcode}
    {stack : List Entry} {object : Object}
    (step : stage.machine.step? opcode =
      some (({ stage.machine with stack } : Machine).create object))
    (room : stage.trace.memo.next < 2 ^ 32) {product : Product graph protocol}
    (is : product.Is stage object) {key : Option MemoKey} (fits : product.Fits key)
    {start : Stage} (since : Extends graph protocol start stage) :
    ∃ machine, Follows graph ⟨(stage.trace.emit opcode).remember protocol key, machine⟩ ∧
      Above start stack [product.keyed key]
        ⟨(stage.trace.emit opcode).remember protocol key, machine⟩ := by
  rcases follows.exists_created step room protocol
    fun known same => (fits known same).suits is _ with ⟨machine, later, created⟩
  have found : machine.heap[stage.machine.heap.length]? = some object := by
    rw [created.heap, List.getElem?_concat_length]
  have held : machine.memo[stage.trace.memo.next]? =
      some (.object stage.machine.heap.length) := by
    rw [created.memo, getElem?_insert_self]
  have extends_ : Extends graph protocol stage
      ⟨(stage.trace.emit opcode).remember protocol key, machine⟩ := {
    toKeeps := created.keeps
    frame := fun old => by rw [created.heap, List.getElem?_append_left old]
    settled := fun slot id recent keyed => by
      have bound := Memo.lt_next_of_slot keyed
      rw [Trace.memo_remember, Memo.next_take, Trace.memo_emit] at bound
      have same : slot = stage.trace.memo.next := Nat.le_antisymm (by omega) recent
      subst same
      rw [Trace.memo_remember, Trace.memo_emit, Memo.slots_take_next, Option.some.injEq] at keyed
      have shows := (fits _ keyed).2 is
      exact ⟨_, object, Nat.le_refl _, held, found, shows.kept created.keeps⟩ }
  refine ⟨machine, later, [_], since.trans extends_, created.stack, .cons ⟨?_, ?_⟩ .nil⟩
  · exact ⟨object, found, product.lasts extends_ is⟩
  · intro id same
    subst same
    rcases (fits _ rfl).1 with ⟨node, present, takesSlot⟩
    exact ⟨node, present, Or.inr ⟨takesSlot, _, Memo.slots_take_next _ _, held⟩⟩

theorem leads_create {before : Stage → Prop} {start : Stage} {stack : List Entry}
    {opcode : Opcode} {product : Product graph protocol} {key : Option MemoKey}
    (fits : product.Fits key)
    (creates : ∀ {stage}, before stage → Extends graph protocol start stage ∧
      ∃ object, stage.machine.step? opcode =
        some (({ stage.machine with stack } : Machine).create object) ∧
        product.Is stage object) :
    Leads graph protocol write before [.op opcode, .remember key]
      (Above start stack [product.keyed key]) where
  grows performed := by
    cases performed
    simp
  leads follows holds room performed := by
    cases performed
    rcases creates holds with ⟨since, object, step, is⟩
    rw [Trace.memo_remember, Memo.next_take, Trace.memo_emit] at room
    exact follows.exists_product step (Nat.lt_of_succ_le room) is fits since

theorem puts_created {opcode : Opcode} {object : Object} {key : Option MemoKey}
    (found : Machine.created? opcode = some object)
    (fits : (Product.exactly object : Product graph protocol).Fits key) :
    Puts graph protocol write [(Product.exactly object).keyed key]
      [.op opcode, .remember key] :=
  .of_leads fun start => leads_create fits fun {stage} below => by
    rcases below with ⟨_, since, whole, hold⟩
    cases hold
    have same : stage.machine.stack = start.machine.stack := whole
    refine ⟨since, object, ?_, rfl⟩
    rw [Machine.step?_created found, ← same]

/-! ## The memo -/

theorem Follows.exists_get {stage : Stage} (follows : Follows graph stage) (protocol : Protocol)
    {key : MemoKey} {slot : Nat} (found : stage.trace.memo.find? key = some slot)
    (room : stage.trace.memo.next ≤ 2 ^ 32) :
    ∃ value, stage.machine.memo[slot]? = some value ∧
      Suits graph stage.machine.heap key value ∧
      Follows graph ⟨stage.trace.emit (protocol.getOpcode slot), stage.machine.push value⟩ := by
  have earlier := follows.faithful.lt_next found
  rcases follows.taken earlier with ⟨value, held⟩
  have named := protocol.getSlot?_getOpcode slot
  rw [Machine.carriedSlot_of_lt protocol (Nat.lt_of_lt_of_le earlier room)] at named
  have step : stage.machine.step? (protocol.getOpcode slot) =
      some (stage.machine.push value) := by
    rw [Machine.step?_getSlot? named, Machine.fetch?, held]
    rfl
  exact ⟨value, held, follows.suits (follows.faithful.holds found) held,
    follows.emit step rfl (.refl _)⟩

theorem Follows.denotes {stage : Stage} (follows : Follows graph stage) {id : NodeId} {slot : Nat}
    (found : stage.trace.memo.find? (.node id) = some slot) {value : Value}
    (held : stage.machine.memo[slot]? = some value) : Denotes graph protocol stage id value := by
  have keyed := follows.faithful.holds found
  rcases follows.suits keyed held with ⟨-, node, present, takesSlot⟩
  exact ⟨node, present, Or.inr ⟨takesSlot, slot, keyed, held⟩⟩

/-- What suits a key is fetched, or it is written. -/
private theorem Follows.exists_fetchOr {stage : Stage} (follows : Follows graph stage)
    (key : MemoKey) (content : Content graph protocol)
    (suited : ∀ {stage value}, Suits graph stage.machine.heap key value →
      content.Holds stage value)
    {writes : Trace → Trace} (room : (stage.trace.fetchOr protocol key writes).memo.next ≤ 2 ^ 32)
    (written : stage.trace.memo.find? key = none → (writes stage.trace).memo.next ≤ 2 ^ 32 →
      ∃ machine, Follows graph ⟨writes stage.trace, machine⟩ ∧
        Above stage stage.machine.stack [content] ⟨writes stage.trace, machine⟩) :
    ∃ machine, Follows graph ⟨stage.trace.fetchOr protocol key writes, machine⟩ ∧
      Above stage stage.machine.stack [content]
        ⟨stage.trace.fetchOr protocol key writes, machine⟩ := by
  rw [Trace.fetchOr] at room ⊢
  cases found : stage.trace.memo.find? key with
  | none =>
      simp only [found] at room
      exact written found room
  | some slot =>
      simp only [found] at room
      rcases follows.exists_get protocol found room with ⟨value, -, suits, later⟩
      exact ⟨_, later, [value], .aside rfl rfl rfl, rfl,
        .cons (suited suits) .nil⟩

theorem Puts.imp {content weaker : Content graph protocol} {steps : List Step}
    (puts : Puts graph protocol write [content] steps)
    (implies : ∀ {stage value}, content.Holds stage value → weaker.Holds stage value) :
    Puts graph protocol write [weaker] steps :=
  .of_leads fun start => (puts start start.machine.stack []).weaken fun above => by
    rcases above with ⟨values, extends_, whole, hold⟩
    rcases hold with _ | ⟨holds, _ | _⟩
    exact ⟨_, extends_, whole, .cons (implies holds) .nil⟩

/-! ## Texts -/

def Content.text (content : String) : Content graph protocol :=
  (Product.exactly (.text content)).content

theorem Content.firm_text (content : String) :
    (Content.text content : Content graph protocol).Firm :=
  Product.firm_content_exactly rfl

theorem Content.textOf? {content : String} {stage : Stage} {value : Value}
    (holds : (Content.text content : Content graph protocol).Holds stage value) :
    Machine.textOf? stage.machine.heap value = some content := by
  rcases holds with ⟨_, found, rfl⟩
  rw [Machine.textOf?, found]
  rfl

private theorem Content.text_of_textOf? {content : String} {stage : Stage} {value : Value}
    (found : Machine.textOf? stage.machine.heap value = some content) :
    (Content.text content : Content graph protocol).Holds stage value := by
  rcases Option.bind_eq_some_iff.1 found with ⟨object, isObject, isText⟩
  cases object with
  | text =>
      cases isText
      exact ⟨_, isObject, rfl⟩
  | _ => cases isText

theorem puts_freshText (content : String) :
    Puts graph protocol write [Content.text content] (protocol.freshText content) :=
  Puts.imp (puts_created (Machine.created?_textOpcode protocol content)
    (Product.fits_none _)) fun holds => holds.1

theorem puts_sharedText (content : String) :
    Puts graph protocol write [Content.text content] [.sharedText content] :=
  .of_step
    (fun performed => by
      cases performed
      exact (Trace.Aside.sharedText _ content).grows.next_le)
    fun {stage _} follows room performed => by
      cases performed
      refine follows.exists_fetchOr (.text content) (Content.text content)
        (fun suits => Content.text_of_textOf? suits) room fun _ room => ?_
      have fits : (Product.exactly (.text content) : Product graph protocol).Fits
          (some (.text content)) := by
        intro known same
        cases same
        intro stage object same
        subst same
        rfl
      have puts : Puts graph protocol write [Content.text content]
          [.op (protocol.textOpcode content), .remember (some (.text content))] :=
        Puts.imp (puts_created (Machine.created?_textOpcode protocol content) fits)
          fun holds => holds.1
      exact puts.exists_above follows room rfl

/-! ## Callables -/

private theorem Follows.exists_named {stage : Stage} (follows : Follows graph stage)
    {callable : Callable} {start : Stage} {stack : List Entry}
    (above : Above start stack [(Content.exactly (.callable callable) : Content graph protocol)]
      stage)
    (room : stage.trace.memo.next < 2 ^ 32) :
    ∃ machine,
      Follows graph ⟨stage.trace.remember protocol (some (.callable callable)), machine⟩ ∧
      Above start stack [(Content.exactly (.callable callable) : Content graph protocol)]
        ⟨stage.trace.remember protocol (some (.callable callable)), machine⟩ := by
  rcases above with ⟨_, since, whole, hold⟩
  rcases hold with _ | ⟨rfl, _ | _⟩
  have suits : ∀ known, some (MemoKey.callable callable) = some known →
      Suits graph stage.machine.heap known (.callable callable) := by
    intro known same
    cases same
    rfl
  refine ⟨_, follows.remember whole room suits (fun address isObject => by cases isObject),
    [_], since.trans
      { toKeeps := follows.keeps_remember _ _, frame := fun _ => rfl, settled := ?_ },
    whole, .cons rfl .nil⟩
  intro slot id recent keyed
  have bound := Memo.lt_next_of_slot keyed
  rw [Trace.memo_remember, Memo.next_take] at bound
  have same : slot = stage.trace.memo.next := Nat.le_antisymm (by omega) recent
  subst same
  rw [Trace.memo_remember, Memo.slots_take_next] at keyed
  cases keyed

private theorem leads_stackGlobal {start : Stage} {stack : List Entry} (callable : Callable) :
    Leads graph protocol write
      (Above start stack
        ([.text callable.module, .text callable.name] : List (Content graph protocol)))
      [.op .stackGlobal]
      (Above start stack [(Content.exactly (.callable callable) : Content graph protocol)]) :=
  .step
    (fun performed => by
      cases performed
      exact Nat.le_refl _)
    fun {stage _} follows above _ performed => by
      cases performed
      rcases above with ⟨_, since, whole, hold⟩
      rcases hold with _ | ⟨isModule, _ | ⟨isName, _ | _⟩⟩
      have step : stage.machine.step? .stackGlobal =
          some (({ stage.machine with stack } : Machine).push (.callable callable)) := by
        change stage.machine.name? = _
        simp only [Machine.name?, whole, Machine.pushAll, List.foldl_cons, List.foldl_nil,
          Content.textOf? isModule, Content.textOf? isName, Machine.callable?_names,
          Option.bind_some, Option.map_some]
      exact ⟨_, follows.emit step rfl (.refl _), [_],
        since.trans (.aside rfl rfl rfl), rfl, .cons rfl .nil⟩

/-- The steps that name a callable by two strings. -/
def namingSteps (protocol : Protocol) (callable : Callable) : List Step :=
  .split :: (if callable.isFunction then protocol.freshText callable.module
    else [.sharedText callable.module]) ++
    (.split :: protocol.freshText callable.name ++ [.op .stackGlobal])

private theorem performAll_namingSteps (trace : Trace) (callable : Callable) :
    Trace.performAll protocol write (namingSteps protocol callable) trace =
      .complete (trace.stackedNames protocol callable) := by
  rw [namingSteps, Trace.stackedNames]
  cases callable.isFunction <;> rfl

private theorem puts_namingSteps (callable : Callable) :
    Puts graph protocol write [Content.exactly (.callable callable)]
      (namingSteps protocol callable) := by
  have module : Puts graph protocol write [Content.text callable.module]
      (if callable.isFunction then protocol.freshText callable.module
        else [.sharedText callable.module]) := by
    split
    · exact puts_freshText _
    · exact puts_sharedText _
  exact .of_leads fun start =>
    (leads_split.cons (module start start.machine.stack [])).append
      ((leads_split.cons (puts_freshText callable.name start start.machine.stack _)).append
        (leads_stackGlobal callable))

theorem puts_callable (callable : Callable) :
    Puts graph protocol write [Content.exactly (.callable callable)] [.callable callable] :=
  .of_step
    (fun performed => by
      cases performed
      exact (Trace.Aside.callable _ callable).grows.next_le)
    fun {stage _} follows room performed => by
      cases performed
      refine follows.exists_fetchOr (.callable callable) (.exactly (.callable callable))
        (fun suits => suits) room fun _ room => ?_
      dsimp only at room ⊢
      split at room
      · rename_i recent
        rw [if_pos recent]
        rw [Trace.memo_remember, Memo.next_take] at room
        have puts : Puts graph protocol write [Content.exactly (.callable callable)]
          (namingSteps protocol callable) := puts_namingSteps callable
        rcases puts.exists_above follows (Nat.le_of_succ_le room)
          (performAll_namingSteps _ callable) with ⟨machine, named, above⟩
        exact named.exists_named above (Nat.lt_of_succ_le room)
      · rename_i old
        rw [if_neg old]
        rw [Trace.memo_remember, Memo.next_take] at room
        have puts : Puts graph protocol write [Content.exactly (.callable callable)]
          [.op (Trace.globalOpcode protocol callable)] :=
          puts_scalar (Machine.scalar?_globalOpcode protocol callable)
        rcases puts.exists_above follows (Nat.le_of_succ_le room) rfl with ⟨machine, named, above⟩
        exact named.exists_named above (Nat.lt_of_succ_le room)

end Stage

end PickleTrial
