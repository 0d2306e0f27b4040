import PickleTrial.Proofs.Decoding.Contents

/-! Tuples and calls. The items of a tuple are collected, or dropped where the tuple is in the memo
by then; a call is given a tuple of arguments that lasts as long as the call. -/

namespace PickleTrial

open Machine (Value Object Entry)

namespace Stage

variable {graph : Graph} {protocol : Protocol} {write : NodeId → Trace → Trace.Outcome}

/-- Items that each put one value. -/
def PutsEach (graph : Graph) (protocol : Protocol) (write : NodeId → Trace → Trace.Outcome)
    (contents : List (Content graph protocol)) (items : List (List Step)) : Prop :=
  List.Forall₂ (fun content item => Puts graph protocol write [content] item) contents items

theorem puts_split : Puts graph protocol write [] [.split] := fun _ _ done => by
  rw [List.append_nil]
  exact leads_split

private theorem puts_items {contents : List (Content graph protocol)} {items : List (List Step)}
    (each : PutsEach graph protocol write contents items) :
    Puts graph protocol write contents (items.flatMap (Step.split :: ·)) := by
  induction each with
  | nil => exact .nil
  | cons first _ induction => exact (puts_split.append first).append induction

/-! ## Tuples -/

def tupleBase (protocol : Protocol) (count : Nat) (stack : List Entry) : List Entry :=
  if protocol.isShortTuple count then stack else .mark :: stack

theorem leads_tupleItems {contents : List (Content graph protocol)} {items : List (List Step)}
    (each : PutsEach graph protocol write contents items) {start : Stage} {stack : List Entry} :
    Leads graph protocol write (Above start stack ([] : List (Content graph protocol)))
      (protocol.tupleItems items)
      (Above start (tupleBase protocol items.length stack) contents) := by
  refine .append ?_ (puts_items each start _ [])
  rw [tupleBase]
  split
  · exact .nil
  · exact leads_mark

private theorem takeTuple {values : List Value} {count : Nat} (counted : values.length = count)
    (nonempty : count ≠ 0) (stack : List Entry) (machine : Machine)
    (whole : machine.stack = Machine.pushAll values (tupleBase protocol count stack)) :
    machine.step? (protocol.tupleOpcode count) =
      some (({ machine with stack } : Machine).create (.tuple values)) := by
  have made : machine.tuple? (some (values, stack)) =
      some (({ machine with stack } : Machine).create (.tuple values)) := by
    have someValue : values ≠ [] := by
      intro same
      subst same
      exact nonempty counted.symm
    simp [Machine.tuple?, someValue]
  unfold Protocol.tupleOpcode tupleBase at *
  by_cases short : protocol.isShortTuple count
  · rw [if_pos short] at whole ⊢
    have taken := Machine.takeValues?_pushAll values stack
    rw [← whole, counted] at taken
    simp only [Protocol.isShortTuple, Bool.and_eq_true, decide_eq_true_eq] at short
    have few : count = 1 ∨ count = 2 ∨ count = 3 := by omega
    rcases few with rfl | rfl | rfl
    · exact (congrArg machine.tuple? taken).trans made
    · exact (congrArg machine.tuple? taken).trans made
    · exact (congrArg machine.tuple? taken).trans made
  · rw [if_neg short] at whole ⊢
    have taken := Machine.takeToMark?_pushAll values stack
    rw [← whole] at taken
    exact (congrArg machine.tuple? taken).trans made

/-- A tuple of values with these contents. -/
def tupleOf (contents : List (Content graph protocol)) : Product graph protocol :=
  .of contents fun values => some (.tuple values)

private theorem leads_tuple {contents : List (Content graph protocol)} (nonempty : contents ≠ [])
    {key : Option MemoKey} (fits : (tupleOf contents).Fits key) {start : Stage}
    {stack : List Entry} :
    Leads graph protocol write
      (Above start (tupleBase protocol contents.length stack) contents)
      [.op (protocol.tupleOpcode contents.length), .remember key]
      (Above start stack [(tupleOf contents).keyed key]) :=
  leads_create fits fun {stage} above => by
    rcases above with ⟨values, since, whole, hold⟩
    have counted : values.length = contents.length := hold.length_eq.symm
    exact ⟨since, _, takeTuple counted (by simpa using nonempty) stack stage.machine whole,
      values, rfl, hold⟩

/-! ### Tuples completed before -/

private theorem run?_pops (entries stack : List Entry) (machine : Machine)
    (whole : machine.stack = entries ++ stack) :
    Machine.run? (List.replicate entries.length .pop) machine =
      some { machine with stack } := by
  induction entries generalizing machine with
  | nil =>
      rw [List.nil_append] at whole
      rw [← whole]
      rfl
  | cons entry rest induction =>
      have step : machine.step? .pop = some { machine with stack := rest ++ stack } := by
        change machine.operate? .pop = _
        simp only [Machine.operate?, whole, List.cons_append]
      rw [List.length_cons, List.replicate_succ, Machine.run?, List.foldlM_cons, step]
      exact induction _ rfl

private theorem pushAll_eq (values : List Value) (stack : List Entry) :
    Machine.pushAll values stack = (values.map Entry.value).reverse ++ stack := by
  induction values generalizing stack with
  | nil => rfl
  | cons value rest induction =>
      change Machine.pushAll rest (.value value :: stack) = _
      rw [induction, List.map_cons, List.reverse_cons, List.append_assoc]
      rfl

private theorem run?_dropOpcodes {values : List Value} {count : Nat}
    (counted : values.length = count) (stack : List Entry) (machine : Machine)
    (whole : machine.stack = Machine.pushAll values (tupleBase protocol count stack)) :
    Machine.run? (protocol.dropOpcodes count) machine = some { machine with stack } := by
  have length : (values.map Entry.value).reverse.length = count := by simpa using counted
  unfold Protocol.dropOpcodes tupleBase at *
  by_cases short : protocol.isShortTuple count
  · rw [if_pos short] at whole ⊢
    rw [← length]
    exact run?_pops _ stack machine (whole.trans (pushAll_eq values stack))
  · rw [if_neg short] at whole ⊢
    by_cases oldest : protocol.version = 0
    · have all : machine.stack = ((values.map Entry.value).reverse ++ [.mark]) ++ stack := by
        rw [whole, pushAll_eq, List.append_assoc]
        rfl
      have dropped := run?_pops _ stack machine all
      rw [if_pos oldest]
      rwa [List.length_append, length, List.length_singleton] at dropped
    · rw [if_neg oldest]
      have taken := Machine.takeToMark?_pushAll values stack
      rw [← whole] at taken
      have step : machine.step? .popMark = some { machine with stack } := by
        change (Machine.takeToMark? machine.stack).map _ = _
        rw [taken]
        rfl
      rw [Machine.run?, List.foldlM_cons, step]
      rfl

private theorem Follows.emitAll {stage : Stage} (follows : Follows graph stage)
    {opcodes : List Opcode} {stack : List Entry}
    (run : Machine.run? opcodes stage.machine = some { stage.machine with stack }) :
    Follows graph ⟨stage.trace.emitAll opcodes, { stage.machine with stack }⟩ where
  run := by
    rw [Trace.opcodes_emitAll, Machine.run?_append, follows.run, Option.bind_some, run]
  faithful := by
    rw [Trace.memo_emitAll]
    exact follows.faithful
  size := by
    rw [Trace.memo_emitAll]
    exact follows.size
  taken := by
    rw [Trace.memo_emitAll]
    exact follows.taken
  free := by
    rw [Trace.memo_emitAll]
    exact follows.free
  suits := by
    rw [Trace.memo_emitAll]
    exact follows.suits
  bounded := follows.bounded
  distinct := follows.distinct

/-- The items of a tuple with an own slot are collected, or dropped for the tuple that is there. -/
theorem leads_endTuple {id : NodeId} {contents : List (Content graph protocol)}
    (nonempty : contents ≠ []) (fits : (tupleOf contents).FitsKey (.node id)) {start : Stage}
    {stack : List Entry} :
    Leads graph protocol write
      (Above start (tupleBase protocol contents.length stack) contents)
      [.endTuple id contents.length] (Above start stack [Content.denotes graph protocol id]) := by
  refine .step ?_ ?_
  · intro trace final performed
    cases performed
    exact (Trace.Grows.endTuple trace id contents.length).next_le
  · intro stage final follows above room performed
    cases performed
    rcases above with ⟨values, since, whole, hold⟩
    have counted : values.length = contents.length := hold.length_eq.symm
    rw [Trace.endTuple] at room ⊢
    -- A tuple that came to a slot while its items were written is fetched, and the items dropped.
    cases found : stage.trace.memo.find? (.node id) with
    | some slot =>
        simp only [found] at room
        have dropped := follows.emitAll (run?_dropOpcodes counted stack stage.machine whole)
        rw [Trace.memo_emit] at room
        have still : (stage.trace.emitAll (protocol.dropOpcodes contents.length)).memo.find?
            (.node id) = some slot := by rw [Trace.memo_emitAll, found]
        rcases dropped.exists_get protocol still room with ⟨value, held, -, later⟩
        have denotes : Denotes graph protocol _ id value := later.denotes still held
        exact ⟨_, later, [value],
          since.trans (.aside (Trace.memo_emitAll _ _) rfl rfl), rfl, .cons denotes .nil⟩
    | none =>
        simp only [found] at room
        have step := takeTuple counted (by simpa using nonempty) stack stage.machine whole
        rw [Trace.memo_remember, Memo.next_take, Trace.memo_emit] at room
        have is : (tupleOf contents).Is stage (.tuple values) := ⟨values, rfl, hold⟩
        have keyed : (tupleOf contents).Fits (some (.node id)) := by
          intro known same
          cases same
          exact fits
        rcases follows.exists_product step (Nat.lt_of_succ_le room) is keyed since with
            ⟨machine, later, _, extends_, top, holds⟩
        rcases holds with _ | ⟨holds, _ | _⟩
        exact ⟨machine, later, [_], extends_, top, .cons (holds.2 id rfl) .nil⟩

/-! ## Arguments -/

def Content.arguments (contents : List (Content graph protocol)) : Content graph protocol where
  Holds stage value := ∃ values,
    Machine.argumentsOf? stage.machine.heap value = some values ∧
      Content.HoldAll contents stage values
  lasts := by
    intro before after value extends_ given
    rcases given with ⟨values, found, hold⟩
    refine ⟨values, ?_, hold.lasts extends_⟩
    cases value with
    | emptyTuple => exact found
    | object address =>
        rcases Option.bind_eq_some_iff.1 found with ⟨object, isObject, isTuple⟩
        have bound := (List.getElem?_eq_some_iff.1 isObject).1
        exact Option.bind_eq_some_iff.2 ⟨object, (extends_.frame bound).trans isObject, isTuple⟩
    | _ => cases found

theorem puts_emptyTuple :
    Puts graph protocol write [Content.exactly .emptyTuple] protocol.emptyTuple := by
  rw [Protocol.emptyTuple]
  split
  · refine .of_leads fun start => leads_mark.cons (.step ?_ ?_)
    · intro trace final performed
      cases performed
      exact Nat.le_refl _
    · intro stage final follows above room performed
      cases performed
      rcases above with ⟨_, since, whole, hold⟩
      cases hold
      have step : stage.machine.step? .tuple =
          some (({ stage.machine with stack := start.machine.stack } : Machine).push
            .emptyTuple) := by
        change stage.machine.tuple? (Machine.takeToMark? stage.machine.stack) = _
        rw [whole]
        rfl
      exact ⟨_, follows.emit step rfl (.refl _), [_],
        since.trans (.aside rfl rfl rfl), rfl, .cons rfl .nil⟩
  · exact puts_scalar rfl

private theorem puts_arguments {contents : List (Content graph protocol)} {items : List (List Step)}
    (each : PutsEach graph protocol write contents items) :
    Puts graph protocol write [Content.arguments contents] (protocol.arguments items) := by
  rw [Protocol.arguments]
  split
  · rename_i empty
    rw [List.isEmpty_iff] at empty
    subst empty
    cases each
    exact puts_emptyTuple.imp fun holds => by
      cases holds
      exact ⟨[], rfl, .nil⟩
  · rename_i nonempty
    have counted : contents.length = items.length := each.length_eq
    have some_ : contents ≠ [] := by
      intro same
      subst same
      cases each
      exact nonempty rfl
    have tupled : Puts graph protocol write [(tupleOf contents).keyed none]
        (protocol.tupleItems items ++
          [.op (protocol.tupleOpcode items.length), .remember none]) := by
      rw [← counted]
      refine .of_leads fun start => (leads_tupleItems each).append ?_
      rw [← counted]
      exact leads_tuple some_ (Product.fits_none _)
    refine tupled.imp fun holds => ?_
    rcases holds with ⟨⟨object, found, values, made, hold⟩, -⟩
    cases made
    refine ⟨values, ?_, hold⟩
    rename_i stage value
    cases value with
    | object address => exact Option.bind_eq_some_iff.2 ⟨_, found, rfl⟩
    | _ => cases found

/-! ## Calls -/

/-- A call that gives a product when its arguments have the contents. -/
def Calls (callable : Callable) (contents : List (Content graph protocol))
    (product : Product graph protocol) : Prop :=
  ∀ {stage : Stage} {values : List Value}, Content.HoldAll contents stage values →
    ∃ object, Machine.call? stage.machine.heap callable values = some object ∧
      product.Is stage object

theorem puts_call {callable : Callable} {contents : List (Content graph protocol)}
    {product : Product graph protocol} (calls : Calls callable contents product)
    {items : List (List Step)} (each : PutsEach graph protocol write contents items)
    {key : Option MemoKey} (fits : product.Fits key) :
    Puts graph protocol write [product.keyed key] (protocol.call callable items key) :=
  .of_leads fun start => by
    have arguments := (puts_callable callable).append (puts_arguments each)
    refine (arguments start start.machine.stack []).append
      (leads_create fits fun {stage} above => ?_)
    rcases above with ⟨_, since, whole, hold⟩
    rcases hold with _ | ⟨rfl, _ | ⟨⟨values, arguments, holdValues⟩, _ | _⟩⟩
    rcases calls holdValues with ⟨object, called, is⟩
    refine ⟨since, object, ?_, is⟩
    change stage.machine.reduce? = _
    simp only [Machine.reduce?, whole, Machine.pushAll, List.foldl_cons, List.foldl_nil, arguments,
      called, Option.bind_some, Option.map_some]

end Stage

end PickleTrial
