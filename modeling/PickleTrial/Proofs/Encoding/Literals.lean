import Mathlib.Tactic.IntervalCases
import PickleTrial.Proofs.Decoding.Leaves
import PickleTrial.Proofs.Encoding.Integers
import PickleTrial.Proofs.Encoding.Success
import PickleTrial.Proofs.Graph.Rendering
import PickleTrial.Proofs.Number.CanonicalDecimal
import PickleTrial.Proofs.Text.Quoted

/-! Numbers that are given by literals. A stream carries the canonical text of the number, whatever
literal of it was given, and what is shown is the literal as it was given. So the two agree for the
literals that are canonical, and two literals of one number are written alike and shown apart. -/

namespace PickleTrial

open Machine (Value Object)

/-! ## Canonical integers -/

namespace Integer.Literal

/-- A literal without a plus sign, without zeros in front, and without a sign of zero. -/
structure IsCanonical (literal : Literal) : Prop where
  plus : literal.sign ≠ .plus
  leading : literal.digits.head? = some '0' → literal.digits = ['0']
  zero : literal.sign = .minus → literal.digits ≠ ['0']

private theorem signedDecimal_natCast (magnitude : Nat) :
    Numeral.signedDecimal (magnitude : Int) = Numeral.decimal magnitude := by
  rw [Numeral.signedDecimal, if_neg (by omega), Int.natAbs_natCast]

private theorem signedDecimal_neg (magnitude : Nat) :
    Numeral.signedDecimal (-(magnitude : Int)) =
      if magnitude = 0 then ['0'] else '-' :: Numeral.decimal magnitude := by
  have absolute : (-(magnitude : Int)).natAbs = magnitude := by omega
  rw [Numeral.signedDecimal, absolute]
  by_cases zero : magnitude = 0
  · subst zero
    rfl
  · rw [if_pos (by omega), if_neg zero]

/-- The canonical literal of an integer is its decimal text. -/
private theorem text_eq_signedDecimal_iff (literal : Literal) :
    literal.text = Numeral.signedDecimal literal.value ↔ literal.IsCanonical := by
  rcases literal with ⟨sign, digits, nonempty, digit⟩
  have plain := signedDecimal_natCast (Nat.ofDigitChars 10 digits 0)
  have negated := signedDecimal_neg (Nat.ofDigitChars 10 digits 0)
  constructor
  · intro same
    have isNumeral {magnitude : Nat} (equal : digits = Numeral.decimal magnitude) :
        digits.head? = some '0' → digits = ['0'] := by
      intro zero
      rw [equal] at zero ⊢
      exact Numeral.eq_of_head?_decimal zero
    cases sign with
    | none => exact ⟨nofun, isNumeral (same.trans plain), nofun⟩
    | plus =>
        have plus : '+' ∈ '+' :: digits := List.mem_cons_self
        rw [show '+' :: digits = _ from same.trans plain] at plus
        cases Numeral.isDigit_of_mem_decimal plus
    | minus =>
        have written : '-' :: digits = _ := same.trans negated
        split at written
        · cases written
        · rename_i positive
          refine ⟨nofun, isNumeral (List.cons.inj written).2, fun _ zero => positive ?_⟩
          rw [show digits = ['0'] from zero]
          rfl
  · intro canonical
    have numeral := Numeral.decimal_ofDigitChars nonempty digit canonical.leading
    cases sign with
    | none => exact (plain.trans numeral).symm
    | plus => exact absurd rfl canonical.plus
    | minus =>
        have positive : Nat.ofDigitChars 10 digits 0 ≠ 0 := by
          intro zero
          rw [zero] at numeral
          exact canonical.zero rfl numeral.symm
        rw [if_neg positive, numeral] at negated
        exact negated.symm

end Integer.Literal

/-! ## Literals and their texts -/

/-- What is given by a literal: an integer of any size, or a decimal number. -/
inductive LiteralKind
  | integer
  | decimal

namespace LiteralKind

def node : LiteralKind → String → Node
  | integer => .bigInt
  | decimal => .decimal

/-- The canonical text of the number that a literal writes. -/
def text? : LiteralKind → String → Option String
  | integer, literal => (Integer.ofLiteral? literal.toList).map Numeral.integer
  | decimal, literal => Decimal.canonical? literal

/-- How the number with a canonical text is written down as a value. -/
def shown : LiteralKind → String → String
  | integer, text => text
  | decimal, text => "Decimal(" ++ Quoted.text text ++ ")"

def IsCanonical : LiteralKind → String → Prop
  | integer, literal =>
      ∃ parts : Integer.Literal, parts.text = literal.toList ∧ parts.IsCanonical
  | decimal, literal => Decimal.canonical? literal = some literal

/-- Exponents of a decimal number have to fit 64 bits. -/
def InRange : LiteralKind → String → Prop
  | integer, _ => True
  | decimal, literal => Decimal.InRange literal

variable {kind : LiteralKind} {literal text : String}

private theorem exists_value_of_text? (read : integer.text? literal = some text) :
    ∃ value, Integer.ofLiteral? literal.toList = some value ∧ Numeral.integer value = text := by
  rw [text?] at read
  exact Option.map_eq_some_iff.1 read

private theorem shown_injective (kind : LiteralKind) : Function.Injective kind.shown := by
  cases kind with
  | integer => exact Function.injective_id
  | decimal =>
      intro first second same
      simp only [shown, String.append_left_inj, String.append_right_inj] at same
      exact Quoted.text_injective same

private theorem isCanonical_iff (read : kind.text? literal = some text) :
    kind.IsCanonical literal ↔ literal = text := by
  cases kind with
  | decimal =>
      rw [IsCanonical, show Decimal.canonical? literal = some text from read, Option.some.injEq,
        eq_comm]
  | integer =>
      rcases exists_value_of_text? read with ⟨value, given, rfl⟩
      rw [← String.toList_inj, Numeral.integer, String.toList_ofList]
      constructor
      · rintro ⟨parts, spelled, canonical⟩
        rw [← spelled, Integer.ofLiteral?_text, Option.some.injEq] at given
        rw [← spelled, ← given]
        exact parts.text_eq_signedDecimal_iff.2 canonical
      · intro same
        rcases Integer.ofLiteral?_eq_some_iff.1 given with ⟨parts, spelled, rfl⟩
        exact ⟨parts, spelled, parts.text_eq_signedDecimal_iff.1 (spelled.trans same)⟩

/-! ## Streams -/

/-- The opcode that has the number in it. -/
def opcode (protocol : Protocol) : LiteralKind → String → Opcode
  | integer, text => protocol.intOpcode ((Integer.ofLiteral? text.toList).getD 0)
  | decimal, text => protocol.textOpcode text

/-- What is written around that opcode: nothing for an integer, and a call for a decimal number. -/
def around (protocol : Protocol) : LiteralKind → List Opcode × List Opcode
  | integer => ([], [])
  | decimal =>
      let slot := if 4 ≤ protocol.version then 2 else 0
      let names :=
        if 4 ≤ protocol.version then
          [protocol.textOpcode "decimal", .memoize, protocol.textOpcode "Decimal", .memoize,
            .stackGlobal]
        else [Trace.globalOpcode protocol .decimal]
      let opens := if 2 ≤ protocol.version then [] else [Opcode.mark]
      (names ++ protocol.putOpcode slot :: opens,
        [protocol.putOpcode (slot + 1), protocol.tupleOpcode 1, protocol.putOpcode (slot + 2),
          .reduce, protocol.putOpcode (slot + 3)])

private theorem length_around_le (kind : LiteralKind) (protocol : Protocol) :
    (kind.around protocol).1.length + (kind.around protocol).2.length ≤ 20 := by
  have each : ∀ protocol ∈ Protocol.all,
      (kind.around protocol).1.length + (kind.around protocol).2.length ≤ 20 := by
    cases kind <;> decide
  exact each protocol protocol.mem_all

/-- The line of protocol 0 with a text in it. -/
inductive Line : LiteralKind → String → Opcode → Prop
  | short (text : String) : Line integer text (.int (LineEscaped.ascii text.toList))
  | long (text : String) : Line integer text
      (.long (LineEscaped.ascii text.toList ++ LineEscaped.ascii ['L']))
  | escaped (text : String) : Line decimal text (.unicode (LineEscaped.encode text.toList))

/-- The value that is read is the number with a text. -/
def Reads : LiteralKind → String → Value → List Object → Prop
  | integer, text, value, _ => ∃ number, value = .int number ∧ Numeral.integer number = text
  | decimal, text, value, heap =>
      ∃ address, value = .object address ∧ heap[address]? = some (.decimal text)

private theorem Reads.unique {other : String} {value : Value} {heap : List Object}
    (reads : kind.Reads text value heap) (readsOther : kind.Reads other value heap) :
    other = text := by
  cases kind with
  | integer =>
      rcases reads with ⟨number, rfl, rfl⟩
      rcases readsOther with ⟨number, same, rfl⟩
      cases same
      rfl
  | decimal =>
      rcases reads with ⟨address, rfl, found⟩
      rcases readsOther with ⟨address, same, foundOther⟩
      cases same
      cases found.symm.trans foundOther
      rfl

private theorem line_opcode (read : kind.text? literal = some text) {first : Protocol}
    (zero : first.version = 0) : kind.Line text (kind.opcode first text) := by
  cases kind with
  | decimal =>
      rw [opcode, Protocol.textOpcode, if_pos zero]
      exact .escaped text
  | integer =>
      rcases exists_value_of_text? read with ⟨value, -, rfl⟩
      have short := Line.short (Numeral.integer value)
      have long := Line.long (Numeral.integer value)
      rw [Numeral.integer, String.toList_ofList] at short long
      simp only [opcode, Numeral.integer, String.toList_ofList, Integer.ofLiteral?_signedDecimal,
        Option.getD_some, Protocol.intOpcode, if_pos zero]
      split
      · exact short
      · rw [if_neg (by omega)]
        exact long

end LiteralKind

/-- Below protocol 2 nothing is delivered but what was written, and the end. -/
private theorem Trace.delivery_of_old (trace : Trace) {protocol : Protocol}
    (old : protocol.version < 2) : trace.delivery protocol = trace.opcodes ++ [.stop] := by
  rw [trace.delivery_of_unframed (by omega), heading, if_neg (by omega), List.nil_append]

namespace Graph

variable {graph : Graph} {protocol : Protocol} {root : NodeId} {kind : LiteralKind}
  {literal text : String}

private theorem exists_trace_of_literal (protocol : Protocol)
    (present : graph.node? root = some (kind.node literal))
    (read : kind.text? literal = some text) :
    ∃ trace, graph.trace protocol root = .complete trace ∧
      trace.opcodes = (kind.around protocol).1 ++
        kind.opcode protocol text :: (kind.around protocol).2 := by
  cases kind with
  | integer =>
      rcases LiteralKind.exists_value_of_text? read with ⟨value, given, rfl⟩
      have plan : protocol.plan root (.bigInt literal) = .ok (protocol.int value) := by
        rw [Protocol.plan_bigInt, given]
      rcases exists_trace_eq_of_plan present plan with ⟨depth, written⟩
      rw [written, LiteralKind.opcode, Numeral.integer, String.toList_ofList,
        Integer.ofLiteral?_signedDecimal]
      exact ⟨_, rfl, rfl⟩
  | decimal =>
      have plan : protocol.plan root (.decimal literal) =
          .ok (protocol.call .decimal [protocol.freshText text] (some (.node root))) := by
        rw [Protocol.plan, show Decimal.canonical? literal = some text from read]
      rcases exists_trace_eq_of_plan present plan with ⟨depth, written⟩
      rw [written]
      rcases protocol with ⟨version, supported⟩
      -- Of the opcodes only the text is not known once the protocol is.
      interval_cases version <;> exact ⟨_, rfl, rfl⟩

/-- Protocol 0 has room for every line. -/
private theorem withinLimits_of_first (zero : protocol.version = 0) :
    graph.WithinLimits protocol root := by
  intro opcode member
  rw [opcodes] at member
  cases traced : graph.trace protocol root with
  | failed error trace =>
      rw [traced] at member
      cases member
  | complete trace =>
      have encoded : graph.pickle protocol.version root =
          .ok (Stream.bytes (trace.delivery protocol)) := by
        rw [pickle_eq, traced]
      rcases exists_streamed encoded with ⟨found, streamed⟩
      cases traced.symm.trans streamed.traced
      rw [traced] at member
      simp only [trace.delivery_of_old (show protocol.version < 2 by omega)] at member
      rcases List.mem_append.1 member with inTrace | stop
      · have since := (streamed.emitted opcode inTrace).since
        rw [zero] at since
        cases opcode <;> trivial
      · rw [List.mem_singleton.1 stop]
        trivial

section Literal

variable (present : graph.node? root = some (kind.node literal))

include present

private theorem pickle_of_literal (read : kind.text? literal = some text) {first : Protocol}
    (zero : first.version = 0) :
    graph.pickle first.version root = .ok (Stream.bytes
      ((kind.around first).1 ++ kind.opcode first text :: ((kind.around first).2 ++ [.stop]))) := by
  rcases exists_trace_of_literal first present read with ⟨trace, traced, opcodes⟩
  rw [pickle_eq, traced]
  simp only [trace.delivery_of_old (show first.version < 2 by omega), opcodes, List.append_assoc,
    List.cons_append]

private theorem exists_loaded_of_literal (read : kind.text? literal = some text)
    (limits : graph.WithinLimits protocol root) :
    ∃ bytes value heap, graph.pickle protocol.version root = .ok bytes ∧
      Machine.load? bytes = some (value, heap) ∧ kind.Reads text value heap := by
  rcases exists_trace_of_literal protocol present read with
      ⟨trace, traced, opcodes⟩
  have encoded : graph.pickle protocol.version root =
      .ok (Stream.bytes (trace.delivery protocol)) := by
    rw [pickle_eq, traced]
  rcases exists_streamed encoded with ⟨found, streamed⟩
  cases traced.symm.trans streamed.traced
  have room : trace.opcodes.length ≤ 2 ^ 32 := by
    have few := kind.length_around_le protocol
    rw [opcodes, List.length_append, List.length_cons]
    omega
  have leaf : (kind.node literal).children = [] := by
    cases kind <;> rfl
  rcases exists_loaded_of_leaf present leaf streamed limits room with
      ⟨value, heap, loaded, scalar, object⟩
  refine ⟨_, value, heap, encoded, loaded, ?_⟩
  cases kind with
  | integer =>
      rcases LiteralKind.exists_value_of_text? read with ⟨number, given, rfl⟩
      have known : (Integer.ofLiteral? literal.toList).map Value.int = some value := scalar rfl
      rw [given] at known
      exact ⟨number, (Option.some.inj known).symm, rfl⟩
  | decimal =>
      rcases object rfl with ⟨address, object, rfl, found, shows⟩
      rw [LiteralKind.node, Node.object?, show Decimal.canonical? literal = some text from read]
        at shows
      cases shows
      exact ⟨address, rfl, found⟩

private theorem rendered_of_literal :
    graph.render root = kind.shown literal ∧
      ∀ (depth : Nat) (active : Std.ExtTreeSet NodeId),
        (graph.renderNode (depth + 1) root).run active = some (kind.shown literal, active) := by
  have leaf : (kind.node literal).ellipsis? = none := by
    cases kind <;> rfl
  have text : (kind.node literal).enclose [] = kind.shown literal := by
    cases kind <;> rfl
  have shown (depth : Nat) (active : Std.ExtTreeSet NodeId) :
      (graph.renderNode (depth + 1) root).run active = some (kind.shown literal, active) := by
    rw [run_renderNode_of_leaf present leaf, text]
  refine ⟨?_, shown⟩
  rw [render, StateT.run'_eq, shown]
  rfl

end Literal

end Graph

namespace LiteralKind

variable {kind : LiteralKind} {literal text : String}

/-! ## Written and shown -/

/-- How a literal is written and how it is shown, for a literal that has a canonical text. -/
structure ShownAsGiven (kind : LiteralKind) (literal text : String) : Prop where
  /-- In the stream of protocol 0 the text is in a line. -/
  line : ∀ {graph : Graph} {root : NodeId}, graph.node? root = some (kind.node literal) →
    ∀ first : Protocol, first.version = 0 → ∃ opcode, kind.Line text opcode ∧
      graph.pickle first.version root = .ok (Stream.bytes
        ((kind.around first).1 ++ opcode :: ((kind.around first).2 ++ [.stop])))
  loaded : ∀ {graph : Graph} {root : NodeId}, graph.node? root = some (kind.node literal) →
    ∀ protocol : Protocol, graph.WithinLimits protocol root →
      ∃ bytes value heap, graph.pickle protocol.version root = .ok bytes ∧
        Machine.load? bytes = some (value, heap) ∧ kind.Reads text value heap
  rendered : ∀ {graph : Graph} {id : NodeId}, graph.node? id = some (kind.node literal) →
    graph.render id = kind.shown literal ∧
      ∀ (depth : Nat) (active : Std.ExtTreeSet NodeId),
        (graph.renderNode (depth + 1) id).run active = some (kind.shown literal, active)
  /-- What is shown is the number that is read only where the literal was canonical. -/
  agrees_iff : kind.shown literal = kind.shown text ↔ kind.IsCanonical literal
  canonical : kind.InRange literal → kind.IsCanonical text
  /-- Wherever the literal stands, another of the text can stand and nothing is written that is
  different. -/
  exchange : ∀ {other : String}, kind.text? other = some text →
    ∀ (graph : Graph) (place root : NodeId) (protocol : Protocol),
      (graph.put place (kind.node other)).pickle protocol.version root =
        (graph.put place (kind.node literal)).pickle protocol.version root
  /-- By themselves, literals of different texts are written differently. -/
  apart : ∀ {other otherText : String}, kind.text? other = some otherText →
    ∀ {graph otherGraph : Graph} {root otherRoot : NodeId},
      graph.node? root = some (kind.node literal) →
      otherGraph.node? otherRoot = some (kind.node other) →
      ∀ protocol : Protocol, graph.WithinLimits protocol root →
        otherGraph.WithinLimits protocol otherRoot →
        otherGraph.pickle protocol.version otherRoot = graph.pickle protocol.version root →
          otherText = text
  /-- Different literals are shown differently, be they of one text or not. -/
  shown_iff : ∀ {other : String}, kind.shown other = kind.shown literal ↔ other = literal

/-- How the literals of a kind are treated. -/
structure WritesCanonically (kind : LiteralKind) : Prop where
  encodes_iff : ∀ {graph : Graph} {root : NodeId} {literal : String},
    graph.node? root = some (kind.node literal) → ∀ protocol : Protocol,
      (∃ bytes, graph.pickle protocol.version root = .ok bytes) ↔
        ∃ text, kind.text? literal = some text
  /-- Protocol 0 has room for every literal. -/
  first : ∀ {graph : Graph} {root : NodeId} {protocol : Protocol}, protocol.version = 0 →
    graph.WithinLimits protocol root
  shows : ∀ {literal text : String}, kind.text? literal = some text →
    kind.ShownAsGiven literal text

private theorem plan_congr {other : String} (read : kind.text? literal = some text)
    (readOther : kind.text? other = some text) (protocol : Protocol) (id : NodeId) :
    protocol.plan id (kind.node other) = protocol.plan id (kind.node literal) := by
  cases kind with
  | decimal =>
      rw [text?] at read readOther
      rw [node, Protocol.plan, Protocol.plan, read, readOther]
  | integer =>
      rcases exists_value_of_text? read with ⟨value, given, rfl⟩
      rcases exists_value_of_text? readOther with ⟨otherValue, givenOther, same⟩
      have numbers := congrArg (fun text => Integer.ofLiteral? text.toList) same
      simp only [Numeral.integer, String.toList_ofList, Integer.ofLiteral?_signedDecimal,
        Option.some.injEq] at numbers
      rw [node, Protocol.plan_bigInt, Protocol.plan_bigInt, given, givenOther, numbers]

/-- The canonical text of a literal is a literal of the same number. -/
private theorem isCanonical_text (read : kind.text? literal = some text)
    (inRange : kind.InRange literal) : kind.IsCanonical text := by
  cases kind with
  | decimal => exact Decimal.canonical?_of_canonical? inRange read
  | integer =>
      rcases exists_value_of_text? read with ⟨value, -, rfl⟩
      refine (isCanonical_iff ?_).2 rfl
      simp only [text?, Numeral.integer, String.toList_ofList, Integer.ofLiteral?_signedDecimal,
        Option.map_some]

private theorem shownAsGiven (read : kind.text? literal = some text) :
    kind.ShownAsGiven literal text where
  line present first zero := ⟨_, line_opcode read zero, Graph.pickle_of_literal present read zero⟩
  loaded present protocol limits := Graph.exists_loaded_of_literal present read limits
  rendered present := Graph.rendered_of_literal present
  agrees_iff := (kind.shown_injective.eq_iff).trans (isCanonical_iff read).symm
  canonical := isCanonical_text read
  exchange readOther graph place root protocol :=
    Graph.pickle_put (plan_congr read readOther protocol place) root
  apart := by
    intro other otherText readOther graph otherGraph root otherRoot present presentOther protocol
      limits limitsOther same
    rcases Graph.exists_loaded_of_literal present read limits with
      ⟨bytes, value, heap, encoded, loaded, reads⟩
    rcases Graph.exists_loaded_of_literal presentOther readOther limitsOther with
      ⟨otherBytes, otherValue, otherHeap, otherEncoded, otherLoaded, otherReads⟩
    rw [encoded, otherEncoded, Except.ok.injEq] at same
    rw [same, loaded] at otherLoaded
    cases otherLoaded
    exact reads.unique otherReads
  shown_iff := kind.shown_injective.eq_iff

private theorem exists_text_of_pickle {graph : Graph} {root : NodeId} {protocol : Protocol}
    {bytes : Bytes} (present : graph.node? root = some (kind.node literal))
    (encoded : graph.pickle protocol.version root = .ok bytes) :
    ∃ text, kind.text? literal = some text := by
  have encodable := Graph.encodable_of_pickle encoded
  cases kind with
  | integer =>
      rcases Option.ne_none_iff_exists'.1 (encodable.integers root literal .refl present) with
        ⟨value, given⟩
      exact ⟨_, Option.map_eq_some_iff.2 ⟨value, given, rfl⟩⟩
  | decimal =>
      exact Option.ne_none_iff_exists'.1 (encodable.decimals root literal .refl present)

/-- Literals are written canonically and shown as they were given. -/
theorem writesCanonically (kind : LiteralKind) : kind.WritesCanonically where
  encodes_iff := by
    intro graph root literal present protocol
    constructor
    · rintro ⟨bytes, encoded⟩
      exact exists_text_of_pickle present encoded
    · rintro ⟨text, read⟩
      rcases Graph.exists_trace_of_literal protocol present read with
        ⟨trace, traced, -⟩
      exact ⟨_, by rw [Graph.pickle_eq, traced]⟩
  first := Graph.withinLimits_of_first
  shows := shownAsGiven

/-- One half, without the zero in front of the point. -/
example : decimal.text? ".5" = some "0.5" ∧
    Graph.render ⟨#[.decimal ".5"]⟩ 0 = "Decimal('.5')" := by
  decide +kernel

end LiteralKind

end PickleTrial
