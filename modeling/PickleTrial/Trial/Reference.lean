import PickleTrial.Graph.Distinct
import PickleTrial.Trial.Corpus

/-! The reference corpus: for each type that an unpickler may report, values of that type and the
text in which each is to be reported. -/

namespace PickleTrial.Reference

def group (label : String) (cases : List (String × GraphBuilder NodeId)) : CaseGroup where
  label := label
  cases := cases.map fun (text, construction) =>
    let (root, graph) := construction.build
    { graph, root, label, text }

/-! ## Constructions -/

def int (value : Int) : GraphBuilder NodeId :=
  .add (.int (Int64.ofInt value))

def text (value : String) : GraphBuilder NodeId :=
  .add (.text value)

def array (value : TypedArray) : GraphBuilder NodeId :=
  .add (.array value)

def integers (code : IntegerCode) (values : List Int) : GraphBuilder NodeId :=
  array (.integers code (values.map (BitVec.ofInt _)))

def list (items : List (GraphBuilder NodeId)) : GraphBuilder NodeId := do
  .add (.list (← items.mapM id))

def tuple (items : List (GraphBuilder NodeId)) : GraphBuilder NodeId := do
  .add (.tuple (← items.mapM id))

def intGroup (label : String) (values : List Int) : CaseGroup :=
  group label (values.map fun value => (Numeral.integer value, int value))

/-- A list that holds one integer twice. -/
def pair (value : Int) : GraphBuilder NodeId := do
  let item ← int value
  .add (.list [item, item])

/-- Three pairs. -/
def pairs : GraphBuilder (NodeId × NodeId × NodeId) := do
  return (← pair 111, ← pair 222, ← pair 333)

/-- Three strings. -/
def texts : GraphBuilder (NodeId × NodeId × NodeId) := do
  return (← text "abc", ← text "def", ← text "ghi")

/-- Two integers, each with an integer as its value. -/
def intDict (key₁ value₁ key₂ value₂ : Int) : GraphBuilder NodeId := do
  let key₁ ← int key₁
  let value₁ ← int value₁
  let key₂ ← int key₂
  let value₂ ← int value₂
  .addDict [(key₁, value₁), (key₂, value₂)]

/-! ## Values -/

def moment : Moment where
  date := ⟨1999, 12, 31, by decide⟩
  time := ⟨14, 33, 59, 456111000, by decide⟩

/-- From that moment to 10:10:59.999222 on 18 July 2011. -/
def elapsed : Duration :=
  ⟨364333020543111000, by decide⟩

def zero : Binary64 := ⟨0⟩

/-! ## Groups -/

def scalarGroups : List CaseGroup := [
  group "null object" [("null", .add .none)],
  group "java.lang.Boolean" [("true", .add (.bool true)), ("false", .add (.bool false))],
  group "String" [
    ("", text ""),
    ("hello", text "hello"),
    ("hello\u00ff", text "hello\u00ff"),
    ("hello\u20ac", text "hello\u20ac")],
  group "net.razorvine.pickle.objects.ComplexNumber" [
    ("0.0+0.0i", .add (.complex zero zero)),
    -- 1.2 and -3.4
    ("1.2-3.4i", .add (.complex ⟨0x3ff3333333333333⟩ ⟨0xc00b333333333333⟩))],
  group "java.util.Calendar" [
    ("31-Dec-1999 14:33:59 millisec=456", .add (.moment moment)),
    ("31-Dec-1999 00:00:00 millisec=0", .add (.date moment.date))],
  group "net.razorvine.pickle.objects.Time" [
    ("Time: 14 hours, 33 minutes, 59 seconds, 456111 microseconds", .add (.time moment.time))],
  group "net.razorvine.pickle.objects.TimeDelta" [
    ("Timedelta: 4216 days, 70620 seconds, 543111 microseconds (total: 364333020.543111 seconds)",
      .add (.duration elapsed))],
  intGroup "java.lang.Integer"
    [0, 1, 127, 128, 255, 256, 30000, -30000, 60000, 999999999, -999999999, -2147483648,
      2147483647],
  intGroup "java.lang.Long"
    [9999999999, -9999999999, 19999999999, -19999999999, 2147483648, 9223372036854775807,
      -9223372036854775808],
  group "java.math.BigInteger" [
    ("1111222233334444555566667777888899990000",
      .add (.bigInt "1111222233334444555566667777888899990000")),
    ("9223372036854775808", .add (.bigInt "9223372036854775808"))],
  group "java.math.BigDecimal" [
    ("123456789.987654321", .add (.decimal "123456789.987654321"))],
  group "java.lang.Double" [
    ("1234.5678", .add (.float ⟨0x40934a456d5cfaad⟩)),
    ("-1.23456E255", .add (.float ⟨0xf4e50c7970e2a560⟩))]]

def sequenceGroups : List CaseGroup := [
  group "array of class java.lang.Object" [
    ("[]", tuple []),
    ("[1, 2]", tuple [int 1, int 2]),
    ("[foo, bar, 99, [1, 2, 3], null]",
      tuple [text "foo", text "bar", int 99, tuple [int 1, int 2, int 3], .add .none]),
    ("[abc, abc, abc]", do
      let item ← text "abc"
      .add (.tuple [item, item, item]))],
  group "array of char" [("[a, b, c, \u20ac]", array (.text "abc\u20ac"))],
  group "array of byte" [
    ("[1, 2, -128]", integers .b [1, 2, -128]),
    ("[1, 2, 3]", .add (.byteArray [1, 2, 3])),
    ("[65, 66, 67]", .add (.byteArray [65, 66, 67])),
    ("[65, 66, 67]", .add (.bytes [65, 66, 67]))],
  group "array of short" [
    ("[1, 2, 255]", integers .B [1, 2, 255]),
    ("[1, 2, -999]", integers .h [1, 2, -999])],
  group "array of int" [
    ("[1, 2, 65535]", integers .H [1, 2, 65535]),
    ("[1, 2, 3]", integers .i [1, 2, 3]),
    ("[1, 2, -999]", integers .l [1, 2, -999])],
  group "array of long" [
    ("[1, 2, 999]", integers .I [1, 2, 999]),
    ("[1, 2, 999]", integers .L [1, 2, 999])],
  group "array of float" [
    -- 1.0, 2.0 and 3.0
    ("[1.0, 2.0, 3.0]", array (.singles [⟨0x3f800000⟩, ⟨0x40000000⟩, ⟨0x40400000⟩]))],
  group "array of double" [
    -- 1.1, 2.2 and 3.3
    ("[1.1, 2.2, 3.3]",
      array (.doubles [⟨0x3ff199999999999a⟩, ⟨0x400199999999999a⟩, ⟨0x400a666666666666⟩]))],
  group "java.util.ArrayList" [
    ("[1, 2, 3]", list [int 1, int 2, int 3]),
    ("[a, b, c]", list [text "a", text "b", text "c"]),
    ("[abc, abc, abc]", do
      let item ← text "abc"
      .add (.list [item, item, item])),
    ("[111, 222, 333, 111, 222, 333]", do
      let first ← int 111
      let second ← int 222
      let third ← int 333
      .add (.list [first, second, third, first, second, third])),
    ("[[111, 111], [222, 222], [333, 333], [111, 111], [222, 222], [333, 333]]", do
      let (first, second, third) ← pairs
      .add (.list [first, second, third, first, second, third])),
    ("[a, b, (this Collection)]", do
      let items ← list [text "a", text "b"]
      GraphBuilder.append items items
      return items),
    ("[\x7b1=2, 3=4\x7d, \x7b5=6, 7=8\x7d, \x7b9=10, 11=12\x7d]",
      list [intDict 1 2 3 4, intDict 5 6 7 8, intDict 9 10 11 12])]]

def keyedGroups : List CaseGroup := [
  group "java.util.HashSet" [
    ("[1, 2, 3]", do .addSet (← [1, 2, 3, 2, 3].mapM int)),
    ("[]", .addSet [])],
  group "java.util.HashMap" [
    ("[a=1, b=2]", do
      let a ← text "a"
      let one ← int 1
      let b ← text "b"
      let two ← int 2
      .addDict [(a, one), (b, two)]),
    ("[]", .addDict []),
    ("[abc=\x7b\x7d]", do
      let key ← text "abc"
      let inner ← .addDict []
      .addDict [(key, inner)]),
    ("[abc=\x7bdef=[111, 111]\x7d]", do
      let (outerKey, innerKey, _) ← texts
      let (first, _, _) ← pairs
      let inner ← .addDict [(innerKey, first)]
      .addDict [(outerKey, inner)]),
    ("[abc=\x7bdef=[111, 111], ghi=[222, 222]\x7d]", do
      let (outerKey, innerKey, otherKey) ← texts
      let (first, second, _) ← pairs
      let inner ← .addDict [(innerKey, first), (otherKey, second)]
      .addDict [(outerKey, inner)]),
    ("[abc=\x7bdef=[111, 111], abc=[111, 111]\x7d]", do
      let (outerKey, innerKey, _) ← texts
      let (first, _, _) ← pairs
      let inner ← .addDict [(innerKey, first), (outerKey, first)]
      .addDict [(outerKey, inner)])]]

def corpus : Corpus where
  groups := scalarGroups ++ sequenceGroups ++ keyedGroups

end PickleTrial.Reference
