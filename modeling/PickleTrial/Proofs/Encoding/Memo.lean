import PickleTrial.Encoding.Memo

/-! What a memo holds. Every key is found at a slot that was taken with it, and taking a slot
leaves the earlier ones alone. -/

namespace PickleTrial.Memo

/-- The keys with which slots were taken, in the order of the slots. -/
def keys (memo : Memo) : List MemoKey :=
  memo.slots.toList.filterMap id

@[simp] theorem next_empty : ({} : Memo).next = 0 := rfl

@[simp] theorem slots_take (memo : Memo) (key : Option MemoKey) :
    (memo.take key).slots = memo.slots.push key := by
  rcases key with _ | key
  · rfl
  · cases key <;> rfl

@[simp] theorem next_take (memo : Memo) (key : Option MemoKey) :
    (memo.take key).next = memo.next + 1 := by
  simp [next]

@[simp] theorem find?_empty (key : MemoKey) : ({} : Memo).find? key = none := by
  cases key <;> simp [find?]

@[simp] theorem find?_take_none (memo : Memo) (key : MemoKey) :
    (memo.take none).find? key = memo.find? key := by
  cases key <;> rfl

@[simp] theorem find?_take_self (memo : Memo) (key : MemoKey) :
    (memo.take (some key)).find? key = some memo.next := by
  cases key <;> simp [take, find?, next]

theorem find?_take_of_ne (memo : Memo) {key other : MemoKey} (different : key ≠ other) :
    (memo.take (some other)).find? key = memo.find? key := by
  cases other with
  | node id =>
      cases key with
      | node other =>
          have distinct : id ≠ other := fun equal => different (by rw [equal])
          simp [take, find?, Std.TreeMap.getElem?_insert, distinct]
      | callable | text => rfl
  | callable | text =>
      cases key with
      | node => rfl
      | callable | text =>
          have unequal := beq_eq_false_iff_ne.2 different
          simp only [take, find?, List.lookup_cons, unequal]

theorem keys_take_none (memo : Memo) : (memo.take none).keys = memo.keys := by
  simp [keys]

private theorem keys_take_some (memo : Memo) (key : MemoKey) :
    (memo.take (some key)).keys = memo.keys ++ [key] := by
  simp [keys]

theorem nodup_keys_take_some (memo : Memo) (key : MemoKey) :
    (memo.take (some key)).keys.Nodup ↔ memo.keys.Nodup ∧ key ∉ memo.keys := by
  rw [keys_take_some, List.nodup_append]
  constructor
  · intro given
    rcases given with ⟨distinct, -, apart⟩
    exact ⟨distinct, fun member => apart key member key (List.mem_singleton.2 rfl) rfl⟩
  · intro given
    rcases given with ⟨distinct, absent⟩
    refine ⟨distinct, by simp, fun other member last inLast equal => ?_⟩
    rw [equal, List.mem_singleton.1 inLast] at member
    exact absent member

theorem mem_keys (memo : Memo) (key : MemoKey) :
    key ∈ memo.keys ↔ ∃ slot : Nat, memo.slots[slot]? = some (some key) := by
  simp [keys, ← Array.mem_iff_getElem?]

theorem slots_take_of_lt (memo : Memo) (key : Option MemoKey) {slot : Nat}
    (earlier : slot < memo.next) : (memo.take key).slots[slot]? = memo.slots[slot]? := by
  rw [slots_take, Array.getElem?_push]
  exact if_neg (Nat.ne_of_lt earlier)

theorem slots_take_next (memo : Memo) (key : Option MemoKey) :
    (memo.take key).slots[memo.next]? = some key := by
  rw [slots_take, Array.getElem?_push]
  exact if_pos rfl

theorem lt_next_of_slot {memo : Memo} {slot : Nat} {key : Option MemoKey}
    (taken : memo.slots[slot]? = some key) : slot < memo.next :=
  (Array.getElem?_eq_some_iff.1 taken).1

/-! ## Finding -/

/-- Keys are found at slots that hold them, and every key with a slot is found. -/
structure Faithful (memo : Memo) : Prop where
  holds : ∀ {key} {slot : Nat}, memo.find? key = some slot → memo.slots[slot]? = some (some key)
  finds : ∀ {key} {slot : Nat}, memo.slots[slot]? = some (some key) → memo.find? key ≠ none

theorem faithful_empty : Faithful {} where
  holds found := by simp at found
  finds taken := by simp at taken

theorem Faithful.take {memo : Memo} (faithful : memo.Faithful) (taken : Option MemoKey) :
    (memo.take taken).Faithful where
  holds {key slot} found := by
    by_cases latest : taken = some key
    · subst latest
      rw [find?_take_self, Option.some.injEq] at found
      subst found
      exact slots_take_next memo _
    · have earlier : memo.find? key = some slot := by
        rcases taken with _ | other
        · rwa [find?_take_none] at found
        · rwa [find?_take_of_ne] at found
          exact fun equal => latest (by rw [equal])
      have holds := faithful.holds earlier
      rwa [slots_take_of_lt memo taken (lt_next_of_slot holds)]
  finds {key slot} held := by
    by_cases latest : taken = some key
    · subst latest
      simp
    · have earlier : memo.slots[slot]? = some (some key) := by
        rw [slots_take, Array.getElem?_push] at held
        split at held
        · exact absurd (Option.some.inj held) latest
        · exact held
      have found := faithful.finds earlier
      rcases taken with _ | other
      · rwa [find?_take_none]
      · rwa [find?_take_of_ne]
        exact fun equal => latest (by rw [equal])

theorem Faithful.lt_next {memo : Memo} (faithful : memo.Faithful) {key : MemoKey} {slot : Nat}
    (found : memo.find? key = some slot) : slot < memo.next :=
  lt_next_of_slot (faithful.holds found)

theorem Faithful.mem_keys_iff {memo : Memo} (faithful : memo.Faithful) (key : MemoKey) :
    key ∈ memo.keys ↔ memo.find? key ≠ none := by
  rw [mem_keys]
  constructor
  · intro given
    rcases given with ⟨slot, held⟩
    exact faithful.finds held
  · intro found
    rcases Option.ne_none_iff_exists'.1 found with ⟨slot, found⟩
    exact ⟨slot, faithful.holds found⟩

/-- Where keys are distinct, a key has one slot only. -/
theorem slot_unique {memo : Memo} (distinct : memo.keys.Nodup) {first second : Nat} {key : MemoKey}
    (isFirst : memo.slots[first]? = some (some key))
    (isSecond : memo.slots[second]? = some (some key)) : first = second := by
  rw [keys, List.Nodup, List.pairwise_filterMap] at distinct
  rw [← Array.getElem?_toList] at isFirst isSecond
  have ordered {lower upper : Nat} (less : lower < upper)
      (isLower : memo.slots.toList[lower]? = some (some key))
      (isUpper : memo.slots.toList[upper]? = some (some key)) : False := by
    rcases List.getElem?_eq_some_iff.1 isLower with ⟨lowerBound, lowerEqual⟩
    rcases List.getElem?_eq_some_iff.1 isUpper with ⟨upperBound, upperEqual⟩
    exact List.pairwise_iff_getElem.1 distinct lower upper lowerBound upperBound less key
      lowerEqual key upperEqual rfl
  rcases Nat.lt_trichotomy first second with less | equal | greater
  · exact (ordered less isFirst isSecond).elim
  · exact equal
  · exact (ordered greater isSecond isFirst).elim

end PickleTrial.Memo
