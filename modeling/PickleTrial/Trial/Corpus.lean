import PickleTrial.Trial.Case

/-! Corpora: trial cases in groups, each group under the label of the type its values have. -/

namespace PickleTrial

structure CaseGroup where
  label : String
  cases : List TrialCase

structure Corpus where
  groups : List CaseGroup

namespace Corpus

def cases (corpus : Corpus) : List TrialCase :=
  corpus.groups.flatMap CaseGroup.cases

def size (corpus : Corpus) : Nat :=
  corpus.cases.length

def group? (corpus : Corpus) (label : String) : Option CaseGroup :=
  corpus.groups.find? fun group => group.label = label

/-- The groups with the labels given, in their own order. No labels stand for all groups. -/
def restrict (corpus : Corpus) (labels : List String) : Corpus :=
  if labels = [] then corpus
  else { groups := corpus.groups.filter fun group => group.label ∈ labels }

def unknown (corpus : Corpus) (labels : List String) : List String :=
  labels.filter fun label => (corpus.group? label).isNone

end Corpus

end PickleTrial
