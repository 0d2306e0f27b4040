import PickleTrial.Proofs.Encoding.LongTexts

/-! Every stream is structurally valid. Writing a value leaves one value more on the stack of the
walk, whatever stands below; this is shown of each kind of step and put together along the
plans. -/

namespace PickleTrial

namespace Walk

variable {protocol : Protocol} {write : NodeId → Trace → Trace.Outcome}

/-! ## The walk along a trace -/

theorem run?_append (first second : List Opcode) (walk : Walk) :
    run? protocol (first ++ second) walk =
      (run? protocol first walk).bind (run? protocol second) := by
  rw [run?, List.foldlM_append]
  rfl

theorem run?_concat (opcodes : List Opcode) (opcode : Opcode) (walk : Walk) :
    run? protocol (opcodes ++ [opcode]) walk =
      (run? protocol opcodes walk).bind (step? protocol · opcode) := by
  rw [run?_append]
  exact Option.bind_congr fun walk _ => List.foldlM_cons.trans (bind_pure _)

private theorem step?_effect {walk : Walk} {opcode : Opcode} {stack : List Place}
    (ordinary : walk.phase = .ordinary) (since : opcode.since ≤ protocol.version)
    (effect : effect? opcode walk.stack = some stack) :
    walk.step? protocol opcode = some { walk with stack } := by
  rcases walk with ⟨below, stored, phase⟩
  cases ordinary
  rw [step?, if_pos since]
  cases opcode with
  | put | binPut | longBinPut | memoize | get | binGet | longBinGet | pop | frame => cases effect
  | _ => simp only [act?, Opcode.putSlot?, Opcode.getSlot?, effect, Option.map_some]

/-- Where an opcode may fetch. -/
def Ready (protocol : Protocol) (walk : Walk) : Prop :=
  walk.phase = .ordinary ∨ protocol.version = 0 ∧ walk.phase = .fetching

private theorem step?_getOpcode {walk : Walk} {slot : Nat} (ready : Ready protocol walk)
    (given : protocol.carriedSlot slot ∈ walk.stored) :
    walk.step? protocol (protocol.getOpcode slot) =
      some ⟨.value :: walk.stack, walk.stored, .ordinary⟩ := by
  have slotNamed := protocol.getSlot?_getOpcode slot
  rw [step?, if_pos (protocol.getOpcode_plain slot).since]
  rcases walk with ⟨below, stored, phase⟩
  rcases ready with ordinary | ⟨oldest, fetching⟩
  · cases ordinary
    generalize protocol.getOpcode slot = opcode at slotNamed
    cases opcode with
    | get | binGet | longBinGet =>
        simp only [act?, slotNamed, Opcode.putSlot?, fetch?, if_pos given]
    | _ => cases slotNamed
  · cases fetching
    have opcode : protocol.getOpcode slot = .get (LineEscaped.ascii (Numeral.decimal slot)) :=
      if_pos oldest
    rw [opcode] at slotNamed ⊢
    simp only [act?, slotNamed, Option.bind_some, fetch?, if_pos given]

/-- The opcode that gives a slot: from protocol 4 on it is the next one, and before it is the one
that the opcode names. -/
private theorem exists_step?_putOpcode {walk : Walk} {below : List Place}
    (ordinary : walk.phase = .ordinary) (top : walk.stack = .value :: below) (next : Nat)
    (length : walk.stored.length = next) :
    ∃ slot, walk.step? protocol (protocol.putOpcode next) =
        some { walk with stored := slot :: walk.stored } ∧
      (slot = next ∨ slot = protocol.carriedSlot next) := by
  have since := (protocol.putOpcode_emitted next).since
  rcases walk with ⟨stack, stored, phase⟩
  cases ordinary
  cases top
  by_cases recent : 4 ≤ protocol.version
  · have opcode : protocol.putOpcode next = .memoize := if_pos recent
    rw [opcode] at since ⊢
    refine ⟨next, ?_, Or.inl rfl⟩
    rw [step?, if_pos since, ← length]
    rfl
  · have explicit := Nat.not_le.1 recent
    have slotNamed := protocol.putSlot?_putOpcode explicit next
    refine ⟨_, ?_, Or.inr rfl⟩
    rw [step?, if_pos since]
    generalize protocol.putOpcode next = opcode at slotNamed
    cases opcode with
    | put | binPut | longBinPut =>
        simp only [act?, slotNamed, if_pos explicit, store?, onValue?, Option.map_some]
    | _ => cases slotNamed

/-- The walk along the opcodes of a trace. The slots it has seen are as many as the memo has
given, and each slot of the memo is among them as opcodes name it. -/
structure Along (protocol : Protocol) (trace : Trace) (walk : Walk) : Prop where
  run : run? protocol trace.opcodes {} = some walk
  ordinary : walk.phase = .ordinary
  faithful : trace.memo.Faithful
  length : walk.stored.length = trace.memo.next
  carried : ∀ slot < trace.memo.next, protocol.carriedSlot slot ∈ walk.stored

namespace Along

variable {trace : Trace} {walk later : Walk}

theorem split (along : Along protocol trace walk) : Along protocol (trace.record .split) walk where
  run := by rw [Trace.opcodes_split, along.run]
  ordinary := along.ordinary
  faithful := along.faithful
  length := along.length
  carried := along.carried

theorem begins (along : Along protocol trace walk) (id : NodeId) :
    Along protocol (trace.record (.begins id)) walk where
  run := by rw [Trace.opcodes_begins, along.run]
  ordinary := along.ordinary
  faithful := along.faithful
  length := along.length
  carried := along.carried

theorem emit (along : Along protocol trace walk) {opcode : Opcode}
    (step : walk.step? protocol opcode = some later) (ordinary : later.phase = .ordinary)
    (stored : later.stored = walk.stored) : Along protocol (trace.emit opcode) later where
  run := by rw [Trace.opcodes_emit, run?_concat, along.run, Option.bind_some, step]
  ordinary := ordinary
  faithful := along.faithful
  length := by rw [stored, along.length, Trace.memo_emit]
  carried := by
    rw [stored]
    exact along.carried

theorem effect (along : Along protocol trace walk) {opcode : Opcode} {stack : List Place}
    (since : opcode.since ≤ protocol.version) (effect : effect? opcode walk.stack = some stack) :
    Along protocol (trace.emit opcode) { walk with stack } :=
  along.emit (step?_effect along.ordinary since effect) along.ordinary rfl

private theorem fetch (along : Along protocol trace walk) {opcodes : List Opcode}
    (run : run? protocol opcodes walk = some later) (stored : later.stored = walk.stored)
    (ready : Ready protocol later) {slot : Nat} (given : slot < trace.memo.next) :
    Along protocol ((trace.emitAll opcodes).emit (protocol.getOpcode slot))
      ⟨.value :: later.stack, later.stored, .ordinary⟩ where
  run := by
    have member : protocol.carriedSlot slot ∈ later.stored := stored ▸ along.carried slot given
    rw [Trace.opcodes_emit, run?_concat, Trace.opcodes_emitAll, run?_append, along.run,
      Option.bind_some, run, Option.bind_some, step?_getOpcode ready member]
  ordinary := rfl
  faithful := by simpa using along.faithful
  length := by simpa [stored] using along.length
  carried := by simpa [stored] using along.carried

theorem remember (along : Along protocol trace walk) {below : List Place}
    (top : walk.stack = .value :: below) (key : Option MemoKey) :
    ∃ later, Along protocol (trace.remember protocol key) later ∧ later.stack = walk.stack := by
  have ordinary := along.ordinary
  rcases exists_step?_putOpcode ordinary top trace.memo.next along.length with ⟨slot, store, named⟩
  refine ⟨{ walk with stored := slot :: walk.stored },
    ⟨?_, ordinary, along.faithful.take key, ?_, ?_⟩, rfl⟩
  · rw [Trace.opcodes_remember, run?_concat, along.run, Option.bind_some, store]
  · simp [along.length]
  · rw [Trace.memo_remember, Memo.next_take]
    intro other bound
    by_cases earlier : other < trace.memo.next
    · exact List.mem_cons_of_mem _ (along.carried other earlier)
    · have latest : other = trace.memo.next := by omega
      subst latest
      rcases named with rfl | rfl
      · by_cases same : protocol.carriedSlot trace.memo.next = trace.memo.next
        · rw [same]
          exact List.mem_cons_self
        · have smaller := protocol.carriedSlot_le trace.memo.next
          have known := along.carried (protocol.carriedSlot trace.memo.next) (by omega)
          rw [Protocol.carriedSlot_carriedSlot] at known
          exact List.mem_cons_of_mem _ known
      · exact List.mem_cons_self

end Along

/-- The walk along a trace leaves a stack. -/
def Leaves (protocol : Protocol) (trace : Trace) (stack : List Place) : Prop :=
  ∃ walk, Along protocol trace walk ∧ walk.stack = stack

namespace Leaves

variable {trace : Trace} {stack below : List Place}

theorem split (leaves : Leaves protocol trace stack) :
    Leaves protocol (trace.record .split) stack := by
  rcases leaves with ⟨walk, along, rfl⟩
  exact ⟨walk, along.split, rfl⟩

private theorem begins (leaves : Leaves protocol trace stack) (id : NodeId) :
    Leaves protocol (trace.record (.begins id)) stack := by
  rcases leaves with ⟨walk, along, rfl⟩
  exact ⟨walk, along.begins id, rfl⟩

private theorem effect (leaves : Leaves protocol trace stack) {opcode : Opcode} {after : List Place}
    (since : opcode.since ≤ protocol.version) (effect : effect? opcode stack = some after) :
    Leaves protocol (trace.emit opcode) after := by
  rcases leaves with ⟨walk, along, rfl⟩
  exact ⟨_, along.effect since effect, rfl⟩

private theorem remember (leaves : Leaves protocol trace (.value :: below)) (key : Option MemoKey) :
    Leaves protocol (trace.remember protocol key) (.value :: below) := by
  rcases leaves with ⟨walk, along, top⟩
  rcases along.remember top key with ⟨later, along, same⟩
  exact ⟨later, along, same.trans top⟩

theorem get (leaves : Leaves protocol trace stack) {key : MemoKey} {slot : Nat}
    (found : trace.memo.find? key = some slot) :
    Leaves protocol (trace.emit (protocol.getOpcode slot)) (.value :: stack) := by
  rcases leaves with ⟨walk, along, rfl⟩
  have stays : run? protocol [] walk = some walk := rfl
  exact ⟨_, along.fetch stays rfl (Or.inl along.ordinary) (along.faithful.lt_next found), rfl⟩

private theorem fetchOr (leaves : Leaves protocol trace stack) {key : MemoKey}
    {write : Trace → Trace} (written : Leaves protocol (write trace) (.value :: stack)) :
    Leaves protocol (trace.fetchOr protocol key write) (.value :: stack) := by
  rw [Trace.fetchOr]
  split
  · rename_i found
    exact leaves.get found
  · exact written

private theorem text (leaves : Leaves protocol trace stack) (content : String) :
    Leaves protocol (trace.emit (protocol.textOpcode content)) (.value :: stack) := by
  apply leaves.effect (protocol.textOpcode_plain content).since
  simp only [Protocol.textOpcode]
  repeat' split
  all_goals rfl

private theorem freshText (leaves : Leaves protocol trace stack) (content : String) :
    Leaves protocol (trace.freshText protocol content) (.value :: stack) :=
  (leaves.text content).remember none

private theorem sharedText (leaves : Leaves protocol trace stack) (content : String) :
    Leaves protocol (trace.sharedText protocol content) (.value :: stack) :=
  leaves.fetchOr ((leaves.text content).remember _)

private theorem stackedNames (leaves : Leaves protocol trace stack) (recent : 4 ≤ protocol.version)
    (callable : Callable) :
    Leaves protocol (trace.stackedNames protocol callable) (.value :: stack) := by
  have module : Leaves protocol
      (if callable.isFunction then
        (trace.record .split).freshText protocol callable.module
      else (trace.record .split).sharedText protocol callable.module) (.value :: stack) := by
    split
    · exact leaves.split.freshText _
    · exact leaves.split.sharedText _
  have since : Opcode.stackGlobal.since ≤ protocol.version := recent
  exact (module.split.freshText _).effect since rfl

private theorem callable (leaves : Leaves protocol trace stack) (callable : Callable) :
    Leaves protocol (trace.callable protocol callable) (.value :: stack) := by
  apply leaves.fetchOr
  dsimp only
  split
  · rename_i recent
    exact (leaves.stackedNames recent callable).remember _
  · exact (leaves.effect (protocol.globalOpcode_plain callable).since rfl).remember _

end Leaves

/-! ## Tuples -/

/-- The stack on which the items of a tuple stand. -/
def tupleBase (protocol : Protocol) (count : Nat) (below : List Place) : List Place :=
  if protocol.isShortTuple count then below else .mark :: below

def tupleStack (protocol : Protocol) (count : Nat) (below : List Place) : List Place :=
  List.replicate count .value ++ tupleBase protocol count below

private theorem takeToMark?_replicate (count : Nat) (below : List Place) :
    takeToMark? (List.replicate count .value ++ .mark :: below) = some (count, below) := by
  induction count with
  | zero => rfl
  | succ count induction =>
      rw [List.replicate_succ, List.cons_append, takeToMark?, induction]
      rfl

private theorem effect?_tupleOpcode {count : Nat} (nonempty : count ≠ 0) (below : List Place) :
    effect? (protocol.tupleOpcode count) (tupleStack protocol count below) =
      some (.value :: below) := by
  unfold Protocol.tupleOpcode tupleStack tupleBase
  by_cases short : protocol.isShortTuple count
  · rw [if_pos short, if_pos short]
    simp only [Protocol.isShortTuple, Bool.and_eq_true, decide_eq_true_eq] at short
    have few : count = 1 ∨ count = 2 ∨ count = 3 := by omega
    rcases few with rfl | rfl | rfl
    · rfl
    · rfl
    · rfl
  · rw [if_neg short, if_neg short]
    change (takeToMark? _).map _ = _
    rw [takeToMark?_replicate]
    rfl

private theorem run?_cons_pop {walk later : Walk} {rest : List Opcode}
    (ready : walk.phase ≠ .fetching) (dropped : walk.drop? protocol = some later) :
    run? protocol (.pop :: rest) walk = run? protocol rest later := by
  have step : walk.step? protocol .pop = some later := by
    rcases walk with ⟨stack, stored, phase⟩
    rw [step?, if_pos (show Opcode.pop.since ≤ _ from Nat.zero_le _), ← dropped]
    cases phase with
    | fetching => exact absurd rfl ready
    | ordinary | dropping => rfl
  rw [run?, List.foldlM_cons, step]
  rfl

private theorem run?_pops (binary : protocol.version ≠ 0) (count : Nat) (below : List Place)
    (stored : List Nat) :
    run? protocol (List.replicate count .pop)
        ⟨List.replicate count .value ++ below, stored, .ordinary⟩ =
      some ⟨below, stored, .ordinary⟩ := by
  induction count with
  | zero => rfl
  | succ count induction =>
      rw [List.replicate_succ, run?_cons_pop (by simp), induction]
      simp [drop?, List.replicate_succ, binary]

private theorem run?_pops_mark (oldest : protocol.version = 0) (count : Nat) (below : List Place)
    (stored : List Nat) :
    run? protocol (List.replicate (count + 1) .pop)
        ⟨List.replicate count .value ++ .mark :: below, stored, .dropping⟩ =
      some ⟨below, stored, .fetching⟩ := by
  induction count with
  | zero => exact run?_cons_pop (by simp) (by simp [drop?, oldest])
  | succ count induction =>
      rw [List.replicate_succ, run?_cons_pop (by simp), induction]
      simp [drop?, List.replicate_succ, oldest]

namespace Leaves

variable {trace : Trace} {below : List Place}

private theorem drops_get (leaves : Leaves protocol trace (tupleStack protocol count below))
    (nonempty : count ≠ 0) {key : MemoKey} {slot : Nat}
    (found : trace.memo.find? key = some slot) :
    Leaves protocol
      ((trace.emitAll (protocol.dropOpcodes count)).emit (protocol.getOpcode slot))
      (.value :: below) := by
  rcases leaves with ⟨⟨stack, stored, phase⟩, along, rfl⟩
  have same : phase = .ordinary := along.ordinary
  subst same
  suffices drops : ∃ phase, run? protocol (protocol.dropOpcodes count)
      ⟨tupleStack protocol count below, stored, .ordinary⟩ = some ⟨below, stored, phase⟩ ∧
      Ready protocol ⟨below, stored, phase⟩ by
    rcases drops with ⟨phase, run, ready⟩
    exact ⟨_, along.fetch run rfl ready (along.faithful.lt_next found), rfl⟩
  rw [Protocol.dropOpcodes, tupleStack, tupleBase]
  by_cases short : protocol.isShortTuple count
  · have binary : protocol.version ≠ 0 := by
      simp only [Protocol.isShortTuple, Bool.and_eq_true, decide_eq_true_eq] at short
      omega
    rw [if_pos short, if_pos short]
    exact ⟨.ordinary, run?_pops binary count below stored, Or.inl rfl⟩
  · rw [if_neg short, if_neg short]
    by_cases oldest : protocol.version = 0
    · rcases Nat.exists_eq_succ_of_ne_zero nonempty with ⟨fewer, rfl⟩
      rw [if_pos oldest]
      refine ⟨.fetching, ?_, Or.inr ⟨oldest, rfl⟩⟩
      have rest := run?_pops_mark oldest fewer below stored
      rw [← rest, List.replicate_succ]
      exact run?_cons_pop (by simp) (by simp [drop?, List.replicate_succ, oldest])
    · rw [if_neg oldest]
      refine ⟨.ordinary, ?_, Or.inl rfl⟩
      have marked : effect? .popMark (List.replicate count .value ++ .mark :: below) =
          some below := congrArg (Option.map Prod.snd) (takeToMark?_replicate count below)
      have since : Opcode.popMark.since ≤ protocol.version := Nat.pos_of_ne_zero oldest
      rw [run?, List.foldlM_cons, step?_effect rfl since marked]
      rfl

private theorem endTuple (leaves : Leaves protocol trace (tupleStack protocol count below))
    (nonempty : count ≠ 0) (id : NodeId) :
    Leaves protocol (trace.endTuple protocol id count) (.value :: below) := by
  rw [Trace.endTuple]
  split
  · rename_i found
    exact leaves.drops_get nonempty found
  · exact (leaves.effect (protocol.tupleOpcode_plain count).since
      (effect?_tupleOpcode nonempty below)).remember _

end Leaves

/-! ## Plans -/

/-- Steps that lead the walk from one stack to another. -/
structure Leads (protocol : Protocol) (write : NodeId → Trace → Trace.Outcome)
    (steps : List Step) (before after : List Place) : Prop where
  leaves : ∀ {trace final : Trace}, Leaves protocol trace before →
    Trace.performAll protocol write steps trace = .complete final → Leaves protocol final after

/-- Steps that put values on top, whatever stands below. -/
def Puts (protocol : Protocol) (write : NodeId → Trace → Trace.Outcome) (count : Nat)
    (steps : List Step) : Prop :=
  ∀ below, Leads protocol write steps below (List.replicate count .value ++ below)

section Plans

variable {steps rest : List Step} {before middle after below : List Place}

private theorem Leads.nil : Leads protocol write [] before before where
  leaves leaves performed := by
    cases performed
    exact leaves

private theorem Leads.append (first : Leads protocol write steps before middle)
    (second : Leads protocol write rest middle after) :
    Leads protocol write (steps ++ rest) before after where
  leaves leaves performed := by
    rcases Trace.performAll_append.1 performed with ⟨between, performedFirst, performedSecond⟩
    exact second.leaves (first.leaves leaves performedFirst) performedSecond

private theorem Leads.cons {step : Step} (first : Leads protocol write [step] before middle)
    (second : Leads protocol write rest middle after) :
    Leads protocol write (step :: rest) before after :=
  first.append second

private theorem Leads.flatMap {α : Type} {values : List α} {steps : α → List Step}
    (each : ∀ value ∈ values, Leads protocol write (steps value) before before) :
    Leads protocol write (values.flatMap steps) before before := by
  induction values with
  | nil => exact .nil
  | cons value rest induction =>
      have parts := List.forall_mem_cons.1 each
      exact parts.1.append (induction parts.2)

private theorem Leads.step {step : Step}
    (performs : ∀ {trace final : Trace}, Leaves protocol trace before →
      trace.perform protocol write step = .complete final → Leaves protocol final after) :
    Leads protocol write [step] before after where
  leaves leaves performed := by
    rcases Trace.performAll_cons.1 performed with ⟨between, performedStep, done⟩
    cases done
    exact performs leaves performedStep

private theorem leads_split : Leads protocol write [.split] before before :=
  .step fun leaves performed => by
    cases performed
    exact leaves.split

private theorem leads_op {opcode : Opcode} (since : opcode.since ≤ protocol.version)
    (effect : effect? opcode before = some after) :
    Leads protocol write [.op opcode] before after :=
  .step fun leaves performed => by
    cases performed
    exact leaves.effect since effect

private theorem leads_remember (key : Option MemoKey) :
    Leads protocol write [.remember key] (.value :: below) (.value :: below) :=
  .step fun leaves performed => by
    cases performed
    exact leaves.remember key

theorem puts_sharedText (content : String) :
    Puts protocol write 1 [.sharedText content] := fun _ =>
  .step fun leaves performed => by
    cases performed
    exact leaves.sharedText content

theorem puts_callable (callable : Callable) :
    Puts protocol write 1 [.callable callable] := fun _ =>
  .step fun leaves performed => by
    cases performed
    exact leaves.callable callable

theorem puts_node (writes : ∀ {id : NodeId} {trace final : Trace} {stack : List Place},
      Leaves protocol trace stack → write id trace = .complete final →
        Leaves protocol final (.value :: stack)) (id : NodeId) :
    Puts protocol write 1 [.node id] :=
  fun _ => .step writes

def pushes (opcode : Opcode) : Prop :=
  ∀ below, effect? opcode below = some (.value :: below)

private theorem puts_op {opcode : Opcode} (since : opcode.since ≤ protocol.version)
    (pushed : pushes opcode) : Puts protocol write 1 [.op opcode] :=
  fun below => leads_op since (pushed below)

private theorem Puts.remember (puts : Puts protocol write 1 steps) (key : Option MemoKey) :
    Puts protocol write 1 (steps ++ [.remember key]) :=
  fun below => (puts below).append (leads_remember key)

theorem puts_freshText (content : String) :
    Puts protocol write 1 (protocol.freshText content) := fun _ =>
  ⟨fun leaves performed => by
    cases performed
    exact leaves.freshText content⟩

theorem puts_int (value : Int) : Puts protocol write 1 (protocol.int value) := by
  apply puts_op (protocol.intOpcode_plain value).since
  intro below
  simp only [Protocol.intOpcode, Protocol.longOpcode, Protocol.payloadOpcode]
  repeat' split
  all_goals rfl

theorem puts_float (value : Binary64) : Puts protocol write 1 (protocol.float value) := by
  apply puts_op (protocol.floatOpcode_plain value).since
  intro below
  rw [Protocol.floatOpcode]
  split <;> rfl

private theorem puts_bool (value : Bool) :
    Puts protocol write 1 [.op (protocol.boolOpcode value)] := by
  apply puts_op (protocol.boolOpcode_plain value).since
  intro below
  rw [Protocol.boolOpcode]
  repeat' split
  all_goals rfl

private theorem puts_emptyTuple : Puts protocol write 1 protocol.emptyTuple := by
  intro below
  rw [Protocol.emptyTuple]
  split
  · exact (leads_op (Nat.zero_le _) rfl).cons (leads_op (Nat.zero_le _) rfl)
  · rename_i binary
    exact leads_op (Nat.pos_of_ne_zero binary) rfl

private theorem puts_items {items : List (List Step)}
    (inItems : ∀ item ∈ items, Puts protocol write 1 item) :
    Puts protocol write items.length (items.flatMap (Step.split :: ·)) := by
  intro below
  induction items generalizing below with
  | nil => exact .nil
  | cons item rest induction =>
      have parts := List.forall_mem_cons.1 inItems
      have later := induction parts.2 (.value :: below)
      rw [List.length_cons, List.replicate_succ', List.append_assoc]
      exact (leads_split.cons (parts.1 below)).append later

private theorem leads_tupleItems {items : List (List Step)}
    (inItems : ∀ item ∈ items, Puts protocol write 1 item) :
    Leads protocol write (protocol.tupleItems items) below
      (tupleStack protocol items.length below) := by
  refine .append ?_ (puts_items inItems _)
  rw [tupleBase]
  split
  · exact .nil
  · exact leads_op (Nat.zero_le _) rfl

private theorem puts_arguments {items : List (List Step)}
    (inItems : ∀ item ∈ items, Puts protocol write 1 item) :
    Puts protocol write 1 (protocol.arguments items) := by
  intro below
  rw [Protocol.arguments]
  split
  · exact puts_emptyTuple below
  · rename_i nonempty
    have counted : items.length ≠ 0 := by simpa using nonempty
    refine (leads_tupleItems inItems).append (.cons ?_ (leads_remember none))
    exact leads_op (protocol.tupleOpcode_plain _).since (effect?_tupleOpcode counted below)

private theorem puts_call {items : List (List Step)}
    (inItems : ∀ item ∈ items, Puts protocol write 1 item) (callable : Callable)
    (key : Option MemoKey) : Puts protocol write 1 (protocol.call callable items key) := by
  intro below
  have argued := (puts_callable callable below).append (puts_arguments inItems (.value :: below))
  have reduced : Leads protocol write [.op .reduce] (.value :: .value :: below) (.value :: below) :=
    leads_op (Nat.zero_le _) rfl
  exact argued.append (reduced.cons (leads_remember key))

private theorem puts_flatten {size : Nat} {items : List (List Step)}
    (inItems : ∀ item ∈ items, Puts protocol write size item) :
    Puts protocol write (items.length * size) items.flatten := by
  intro below
  induction items generalizing below with
  | nil =>
      rw [List.length_nil, Nat.zero_mul]
      exact .nil
  | cons item rest induction =>
      have parts := List.forall_mem_cons.1 inItems
      have later := induction parts.2 (List.replicate size .value ++ below)
      rw [List.length_cons, Nat.succ_mul, List.replicate_add, List.append_assoc]
      exact (parts.1 below).append later

private theorem effect?_several {several : Opcode} {limit group count : Nat}
    (adds : ∀ stack, effect? several stack = addToValue? limit group stack)
    (few : count ≤ limit) (grouped : count % group = 0) (below : List Place) :
    effect? several (List.replicate count .value ++ .mark :: .value :: below) =
      some (.value :: below) := by
  rw [adds, addToValue?, takeToMark?_replicate, Option.bind_some, if_pos ⟨few, grouped⟩]
  rfl

private theorem leads_batchSteps {size : Nat} {single : Option Opcode} {several : Opcode}
    {batch : List (List Step)} (inBatch : ∀ item ∈ batch, Puts protocol write size item)
    (few : batch.length ≤ Protocol.batchSize)
    (oneByOne : ∀ opcode ∈ single, opcode.since ≤ protocol.version ∧
      effect? opcode (List.replicate size .value ++ .value :: below) = some (.value :: below))
    (since : several.since ≤ protocol.version)
    (adds : ∀ stack, effect? several stack = addToValue? (Protocol.batchSize * size) size stack) :
    Leads protocol write (Protocol.batchSteps single several batch) (.value :: below)
      (.value :: below) := by
  unfold Protocol.batchSteps
  split
  · rename_i item single
    have added := oneByOne single rfl
    exact (inBatch item List.mem_cons_self _).append (leads_op added.1 added.2)
  · have marked : Leads protocol write [.op .mark] (.value :: below)
        (.mark :: .value :: below) := leads_op (Nat.zero_le _) rfl
    have together := effect?_several adds (Nat.mul_le_mul_right size few)
      (Nat.mul_mod_left _ _) below
    exact (marked.cons (puts_flatten inBatch _)).append (leads_op since together)

private theorem leads_additions (size : Nat) {single : Option Opcode} {several : Opcode}
    {items : List (List Step)} (inItems : ∀ item ∈ items, Puts protocol write size item)
    (oneByOne : ∀ opcode ∈ single, opcode.since ≤ protocol.version ∧
      effect? opcode (List.replicate size .value ++ .value :: below) = some (.value :: below))
    (since : protocol.version ≠ 0 ∨ single = none → several.since ≤ protocol.version)
    (adds : ∀ stack, effect? several stack = addToValue? (Protocol.batchSize * size) size stack) :
    Leads protocol write (protocol.additions single several items) (.value :: below)
      (.value :: below) := by
  rcases protocol.inBatches_or_oneByOne single with inBatches | ⟨single, oldest, rfl⟩
  · rw [Protocol.additions_inBatches inBatches]
    refine .flatMap fun batch listed => ?_
    have inBatch : ∀ item ∈ batch, Puts protocol write size item := fun item inside =>
      inItems item (Protocol.mem_of_mem_batches listed inside)
    exact leads_batchSteps inBatch (Protocol.length_of_mem_batches listed).2 oneByOne
      (since inBatches) adds
  · have added := oneByOne single rfl
    rw [Protocol.additions_oneByOne oldest]
    exact .flatMap fun item listed =>
      (inItems item listed _).append (leads_op added.1 added.2)

/-! ## Values -/

theorem puts_list {items : List (List Step)} (inItems : ∀ item ∈ items, Puts protocol write 1 item)
    (key : Option MemoKey) : Puts protocol write 1 (protocol.list items key) := by
  intro below
  have empty : Leads protocol write
      (if protocol.version = 0 then [.op .mark, .op .list] else [.op .emptyList]) below
      (.value :: below) := by
    split
    · exact (leads_op (Nat.zero_le _) rfl).cons (leads_op (Nat.zero_le _) rfl)
    · rename_i binary
      exact leads_op (Nat.pos_of_ne_zero binary) rfl
  refine (empty.append (leads_remember key)).append (leads_additions 1 ?_ ?_ ?_ fun _ => rfl)
  · intro item listed below
    rcases List.mem_map.1 listed with ⟨inner, inside, rfl⟩
    exact leads_split.cons (inItems inner inside below)
  · intro opcode same
    cases same
    exact ⟨Nat.zero_le _, rfl⟩
  · intro given
    rcases given with binary | none
    · exact Nat.pos_of_ne_zero binary
    · cases none

private theorem puts_dict (nodes : ∀ id, Puts protocol write 1 [.node id])
    (entries : List (NodeId × NodeId)) (key : Option MemoKey) :
    Puts protocol write 1 (protocol.dict entries key) := by
  intro below
  have empty : Leads protocol write
      (if protocol.version = 0 then [.op .mark, .op .dict] else [.op .emptyDict]) below
      (.value :: below) := by
    split
    · exact (leads_op (Nat.zero_le _) rfl).cons (leads_op (Nat.zero_le _) rfl)
    · rename_i binary
      exact leads_op (Nat.pos_of_ne_zero binary) rfl
  refine (empty.append (leads_remember key)).append (leads_additions 2 ?_ ?_ ?_ fun _ => rfl)
  · intro item listed below
    rcases List.mem_map.1 listed with ⟨entry, -, rfl⟩
    exact (nodes entry.1 below).cons (nodes entry.2 (.value :: below))
  · intro opcode same
    cases same
    exact ⟨Nat.zero_le _, rfl⟩
  · intro given
    rcases given with binary | none
    · exact Nat.pos_of_ne_zero binary
    · cases none

private theorem puts_set (nodes : ∀ id, Puts protocol write 1 [.node id]) (items : List NodeId)
    (key : Option MemoKey) : Puts protocol write 1 (protocol.set items key) := by
  have inItems : ∀ item ∈ items.map fun item => [Step.node item], Puts protocol write 1 item := by
    intro item listed
    rcases List.mem_map.1 listed with ⟨id, -, rfl⟩
    exact nodes id
  rw [Protocol.set]
  split
  · rename_i recent
    intro below
    have empty : Leads protocol write [.op .emptySet] below (.value :: below) :=
      leads_op recent rfl
    refine (empty.cons (leads_remember key)).append (leads_additions 1 inItems ?_ ?_ fun _ => rfl)
    · intro opcode same
      cases same
    · exact fun _ => recent
  · refine puts_call ?_ .set key
    simp only [List.forall_mem_cons]
    exact ⟨puts_list inItems none, by simp⟩

theorem puts_bytes (payload : Bytes) (key : Option MemoKey) :
    Puts protocol write 1 (protocol.bytes payload key) := by
  rw [Protocol.bytes]
  split
  · rename_i recent
    refine Puts.remember (puts_op (protocol.bytesOpcode_plain payload recent).since ?_) key
    intro below
    simp only [Protocol.bytesOpcode]
    repeat' split
    all_goals rfl
  · split
    · exact puts_call (by simp) .bytes key
    · refine puts_call ?_ .encodeText key
      simp only [List.forall_mem_cons]
      exact ⟨puts_freshText _, puts_sharedText _, by simp⟩

private theorem puts_byteArray (payload : Bytes) (key : Option MemoKey) :
    Puts protocol write 1 (protocol.byteArray payload key) := by
  rw [Protocol.byteArray]
  split
  · rename_i recent
    exact Puts.remember (puts_op (protocol.byteArray8_plain payload recent).since fun _ => rfl) key
  · refine puts_call ?_ .byteArray key
    split
    · simp
    · simp only [List.forall_mem_cons]
      exact ⟨puts_bytes _ _, by simp⟩

theorem puts_arrayItems (value : TypedArray) :
    ∀ item ∈ protocol.arrayItems value, Puts protocol write 1 item := by
  intro item member
  cases value with
  | text characters =>
      rcases List.mem_map.1 member with ⟨character, -, rfl⟩
      exact puts_freshText _
  | integers code words =>
      rw [Protocol.arrayItems_integers] at member
      rcases List.mem_map.1 member with ⟨word, -, rfl⟩
      exact puts_int _
  | singles items =>
      rcases List.mem_map.1 member with ⟨item, -, rfl⟩
      exact puts_float _
  | doubles items =>
      rcases List.mem_map.1 member with ⟨item, -, rfl⟩
      exact puts_float _

private theorem puts_array (value : TypedArray) (key : Option MemoKey) :
    Puts protocol write 1 (protocol.array value key) := by
  rw [Protocol.array_eq_call]
  split
  · refine puts_call ?_ .restoreArray key
    simp only [List.forall_mem_cons]
    exact ⟨puts_callable _, puts_freshText _, puts_int _, puts_bytes _ _, by simp⟩
  · refine puts_call ?_ .array key
    simp only [List.forall_mem_cons]
    exact ⟨puts_freshText _, puts_list (puts_arrayItems value) none, by simp⟩

/-- Every plan puts one value on top if the nodes within do. -/
private theorem puts_plan (nodes : ∀ id, Puts protocol write 1 [.node id]) {id : NodeId}
    {node : Node} {steps : List Step} (plan : protocol.plan id node = .ok steps) :
    Puts protocol write 1 steps := by
  have inItems (items : List NodeId) : ∀ item ∈ items.map fun item => [Step.node item],
      Puts protocol write 1 item := by
    intro item listed
    rcases List.mem_map.1 listed with ⟨id, -, rfl⟩
    exact nodes id
  have packed (callable : Callable) (payload : Bytes) (key : Option MemoKey) :
      Puts protocol write 1 (protocol.call callable [protocol.bytes payload none] key) :=
    puts_call (by simpa using puts_bytes payload none) callable key
  cases Protocol.hasPlan_of_plan plan with
  | none => exact puts_op (Nat.zero_le _) fun _ => rfl
  | bool value => exact puts_bool value
  | int value => exact puts_int _
  | bigInt read => exact puts_int _
  | float value => exact puts_float value
  | text value =>
      exact fun below => ⟨fun leaves performed => by
        cases performed
        exact (leaves.text value).remember _⟩
  | bytes value => exact puts_bytes value _
  | byteArray value => exact puts_byteArray value _
  | complex re im =>
      refine puts_call ?_ .complex _
      simp only [List.forall_mem_cons]
      exact ⟨puts_float re, puts_float im, by simp⟩
  | moment value | date value | time value => exact packed _ value.packed _
  | duration counted =>
      refine puts_call ?_ .duration _
      simp only [List.forall_mem_cons]
      exact ⟨puts_int _, puts_int _, puts_int _, by simp⟩
  | decimal canonical =>
      refine puts_call ?_ .decimal _
      simp only [List.forall_mem_cons]
      exact ⟨puts_freshText _, by simp⟩
  | array value => exact puts_array value _
  | emptyTuple => exact puts_emptyTuple
  | @tuple items nonempty =>
      intro below
      have counted : items.length ≠ 0 := by simpa using nonempty
      have complete : Leads protocol write
          (protocol.tupleItems (items.map fun item => [.node item])) below
          (tupleStack protocol items.length below) := by
        simpa using leads_tupleItems (inItems items)
      exact complete.append (.step fun leaves performed => by
        cases performed
        exact leaves.endTuple counted id)
  | list items => exact puts_list (inItems items) _
  | set items => exact puts_set nodes items _
  | dict entries => exact puts_dict nodes entries _

end Plans

/-- Writing a node to its end puts one value on top. -/
theorem Leaves.writeNode {graph : Graph} {depth : Nat} {id : NodeId} {trace final : Trace}
    (complete : Trace.writeNode graph protocol depth id trace = .complete final)
    {stack : List Place} (leaves : Leaves protocol trace stack) :
    Leaves protocol final (.value :: stack) := by
  have written {depth : Nat} {id : NodeId} {node : Node} {steps : List Step} {trace final : Trace}
      (writes : ∀ {id trace final}, Trace.writeNode graph protocol depth id trace =
        .complete final → ∀ stack, Leaves protocol trace stack →
          Leaves protocol final (.value :: stack))
      (plan : protocol.plan id node = .ok steps)
      (performed : Trace.performAll protocol (Trace.writeNode graph protocol depth) steps
        (trace.record (.begins id)) = .complete final)
      (stack : List Place) (leaves : Leaves protocol trace stack) :
      Leaves protocol final (.value :: stack) := by
    have nodes (id : NodeId) :
        Puts protocol (Trace.writeNode graph protocol depth) 1 [.node id] :=
      puts_node (fun leaves complete => writes complete _ leaves) id
    exact (puts_plan nodes plan stack).leaves (leaves.begins id) performed
  exact Trace.writeNode_induction
    (motive := fun _ trace final => ∀ stack, Leaves protocol trace stack →
      Leaves protocol final (.value :: stack))
    (fun found _ leaves => (leaves.begins _).get found)
    (fun writes _ _ plan performed => written writes plan performed) complete stack leaves

/-! ## Streams -/

private theorem step?_frame {walk : Walk} (recent : 4 ≤ protocol.version)
    (ordinary : walk.phase = .ordinary) (length : Nat) :
    walk.step? protocol (.frame length) = some walk := by
  rcases walk with ⟨stack, stored, phase⟩
  cases ordinary
  exact if_pos recent

private theorem phase_store? {walk later : Walk} {slot : Nat}
    (stored : walk.store? slot = some later) : later.phase = walk.phase := by
  rcases Option.map_eq_some_iff.1 stored with ⟨stack, -, rfl⟩
  rfl

theorem eq_of_fetch? {walk later : Walk} {slot : Nat} (fetched : walk.fetch? slot = some later) :
    later = { walk with stack := .value :: walk.stack, phase := .ordinary } := by
  rw [fetch?] at fetched
  split at fetched <;> cases fetched
  rfl

theorem ordinary_of_step? {walk later : Walk} {opcode : Opcode} (binary : protocol.version ≠ 0)
    (ordinary : walk.phase = .ordinary) (step : walk.step? protocol opcode = some later) :
    later.phase = .ordinary := by
  rcases walk with ⟨stack, stored, phase⟩
  cases ordinary
  rw [step?] at step
  split at step
  · unfold act? at step
    split at step
    · cases step
      rfl
    · unfold drop? at step
      split at step
      · cases step
        exact if_neg binary
      · split at step <;> cases step
        rename_i dropping
        exact absurd dropping.1 binary
      · cases step
    · exact phase_store? step
    · split at step
      · split at step
        · exact phase_store? step
        · cases step
      · rw [eq_of_fetch? step]
      · rcases Option.map_eq_some_iff.1 step with ⟨stack, -, rfl⟩
        rfl
    · contradiction
    · contradiction
    · cases step
  · cases step

private theorem run?_filter_isFrame {body : List Opcode} {walk later : Walk}
    (recent : 4 ≤ protocol.version) (ordinary : walk.phase = .ordinary)
    (run : run? protocol (body.filter (!Stream.isFrame ·)) walk = some later) :
    run? protocol body walk = some later := by
  induction body generalizing walk with
  | nil => exact run
  | cons opcode rest induction =>
      cases frame : Stream.isFrame opcode with
      | true =>
          rw [List.filter_cons_of_neg (by simp [frame])] at run
          have stays : walk.step? protocol opcode = some walk := by
            cases opcode with
            | frame length => exact step?_frame recent ordinary length
            | _ => cases frame
          rw [run?, List.foldlM_cons, stays]
          exact induction ordinary run
      | false =>
          rw [List.filter_cons_of_pos (by simp [frame]), run?, List.foldlM_cons] at run
          rcases Option.bind_eq_some_iff.1 run with ⟨middle, step, run⟩
          have binary : protocol.version ≠ 0 := by omega
          rw [run?, List.foldlM_cons, step]
          exact induction (ordinary_of_step? binary ordinary step) run

private theorem run?_of_framing {opcodes body : List Opcode} {later : Walk}
    (framing : Stream.Framing protocol opcodes body)
    (run : run? protocol opcodes {} = some later) : run? protocol body {} = some later := by
  rw [← framing.content] at run
  by_cases recent : 4 ≤ protocol.version
  · exact run?_filter_isFrame recent rfl run
  · rwa [List.filter_eq_self.2] at run
    intro opcode member
    rcases framing.frames opcode member with inside | ⟨framed, -⟩
    · rw [← framing.content] at inside
      exact (List.mem_filter.1 inside).2
    · exact absurd framed recent

/-- A header, a value with frames in it and a stop are accepted. -/
private theorem accepts_heading {body : List Opcode} {later : Walk}
    (noHeader : ∀ version rest, body ≠ .proto version :: rest)
    (run : run? protocol body {} = some later) (stop : later.mayStop) :
    accepts protocol (Trace.heading protocol ++ body ++ [.stop]) = true := by
  rw [List.append_assoc, accepts_heading_append]
  · simp [acceptsBody, run, stop]
  · intro version rest same
    cases body with
    | nil => cases same
    | cons opcode later => exact noHeader version later (by rw [(List.cons.inj same).1])

end Walk

namespace Graph

/-- The opcodes of every stream are structurally valid. The bytes are read as these opcodes if and
only if the protocol has room for the payloads, and then they are structurally valid as well. -/
theorem isValid_of_pickle {graph : Graph} {protocol : Protocol} {root : NodeId} {bytes : Bytes}
    (encoded : graph.pickle protocol.version root = .ok bytes) :
    bytes = Stream.bytes (graph.opcodes protocol root) ∧
      Walk.accepts protocol (graph.opcodes protocol root) = true ∧
      (Stream.read? bytes = some (graph.opcodes protocol root, []) ↔
        graph.WithinLimits protocol root) ∧
      (graph.WithinLimits protocol root → Walk.isValid protocol bytes = true) := by
  rcases exists_streamed encoded with ⟨trace, streamed⟩
  have start : Walk.Leaves protocol {} [] :=
    ⟨{}, ⟨rfl, rfl, Memo.faithful_empty, rfl, fun slot given => absurd given (by simp)⟩, rfl⟩
  rcases Walk.Leaves.writeNode streamed.traced start.split with ⟨walk, along, whole⟩
  rcases Trace.exists_delivery_eq streamed.emitted with ⟨body, delivery, framing⟩
  have noHeader : ∀ version rest, body ≠ .proto version :: rest := by
    intro version rest same
    subst same
    rcases framing.frames _ List.mem_cons_self with inside | ⟨-, frame⟩
    · cases (streamed.emitted _ inside).inside
    · cases frame
  have stop : walk.mayStop := by simp [Walk.mayStop, whole, along.ordinary]
  have accepted : Walk.accepts protocol (graph.opcodes protocol root) = true := by
    rw [streamed.opcodes, delivery]
    exact Walk.accepts_heading noHeader (Walk.run?_of_framing framing along.run) stop
  refine ⟨?_, accepted, streamed.read?_iff, fun limits => ?_⟩
  · rw [streamed.opcodes, streamed.bytes]
  · rw [Walk.isValid, streamed.read? limits]
    exact accepted

/-- A text of 4 GiB at protocol 1: its length is told as 0, and its characters are read as opcodes
that append to nothing. -/
theorem not_isValid_longText :
    ∃ bytes, pickle ⟨#[.text (String.ofList (List.replicate (2 ^ 32) 'a'))]⟩ 1 0 = .ok bytes ∧
      ¬WithinLimits ⟨#[.text (String.ofList (List.replicate (2 ^ 32) 'a'))]⟩ ⟨1, by decide⟩ 0 ∧
      Walk.isValid ⟨1, by decide⟩ bytes = false := by
  have utf8ByteSize (count : Nat) :
      (String.ofList (List.replicate count 'a')).utf8ByteSize = count := by
    have single : 'a'.utf8Size = 1 := rfl
    rw [← Utf8.length_encode]
    simp [Utf8.encode, single]
  have size : (String.ofList (List.replicate (2 ^ 32) 'a')).utf8ByteSize % 256 ^ 4 = 0 := by
    rw [utf8ByteSize]
    rfl
  have begins : (String.ofList (List.replicate (2 ^ 32) 'a')).toList =
      'a' :: List.replicate (2 ^ 32 - 1) 'a' :=
    String.toList_ofList.trans List.replicate_succ
  have present : node? ⟨#[.text (String.ofList (List.replicate (2 ^ 32) 'a'))]⟩ 0 =
      some (.text (String.ofList (List.replicate (2 ^ 32) 'a'))) := rfl
  have binary : Protocol.version ⟨1, by decide⟩ ≠ 0 := by decide
  rcases exists_pickle_not_isValid_of_wraps present binary (by decide) size begins with
    ⟨bytes, encoded, invalid⟩
  refine ⟨bytes, encoded, fun limits => ?_, invalid⟩
  have valid := (isValid_of_pickle encoded).2.2.2 limits
  rw [invalid] at valid
  cases valid

end Graph

end PickleTrial
