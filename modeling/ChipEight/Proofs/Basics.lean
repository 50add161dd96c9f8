import Std.Data.TreeMap.Lemmas
import Mathlib.Data.List.Forall2
import Mathlib.Data.List.TakeWhile

/-!
# Lists, ordered maps and outcomes

What the theory uses of lists, ordered maps and results, whatever their elements are: how a list
divides at the first element without a property, what is found under a key, and when an action
on the elements of a list succeeds.
-/

namespace ChipEight

variable {α β ε : Type}

section Lists

/-- No elements are taken if the first does not go on. -/
theorem takeWhile_of_stops {p : α → Bool} {as : List α} (hstops : ∀ a ∈ as.head?, p a = false) :
    as.takeWhile p = [] ∧ as.dropWhile p = as := by
  obtain _ | ⟨a, as⟩ := as
  · exact ⟨rfl, rfl⟩
  · simp [hstops a rfl]

/-- Elements that go on are taken up to the first that does not. -/
theorem takeWhile_append_of_stops {p : α → Bool} {front back : List α}
    (hfront : ∀ a ∈ front, p a = true) (hback : ∀ a ∈ back.head?, p a = false) :
    (front ++ back).takeWhile p = front ∧ (front ++ back).dropWhile p = back := by
  have hstop := takeWhile_of_stops hback
  rw [List.takeWhile_append_of_pos hfront, List.dropWhile_append_of_pos hfront, hstop.1, hstop.2]
  exact ⟨List.append_nil front, rfl⟩

/-- What follows the elements that go on does not go on. -/
theorem stops_dropWhile (p : α → Bool) (as : List α) :
    ∀ a ∈ (as.dropWhile p).head?, p a = false := by
  intro a hmem
  have hnot := List.head?_dropWhile_not p as
  rw [Option.mem_def.mp hmem] at hnot
  simpa using hnot

/-- Texts that are joined are as long as the texts and the separators together. -/
theorem length_intercalate_le {texts : List String} {bound : Nat}
    (hbound : ∀ text ∈ texts, text.length ≤ bound) (separator : String) :
    (separator.intercalate texts).length ≤
      texts.length * (bound + separator.length) - separator.length := by
  induction texts with
  | nil => simp
  | cons text texts ih =>
    obtain ⟨hhead, htail⟩ := List.forall_mem_cons.mp hbound
    have hle := ih htail
    obtain _ | ⟨next, texts⟩ := texts
    · simpa using hhead
    · rw [String.intercalate_cons_cons, String.length_append, String.length_append]
      rw [List.length_cons, Nat.succ_mul] at hle ⊢
      rw [List.length_cons, Nat.succ_mul]
      omega

/-- Elements can be related to a list exactly if each can be related to something. -/
theorem exists_forall₂_iff {r : α → β → Prop} {as : List α} :
    (∃ bs, List.Forall₂ r as bs) ↔ ∀ a ∈ as, ∃ b, r a b := by
  induction as with
  | nil => simp
  | cons a as ih =>
    rw [List.forall_mem_cons, ← ih]
    constructor
    · rintro ⟨_, _ | ⟨hhead, htail⟩⟩
      exact ⟨⟨_, hhead⟩, _, htail⟩
    · rintro ⟨⟨b, hhead⟩, bs, htail⟩
      exact ⟨b :: bs, .cons hhead htail⟩

/-- An entry with a key is found exactly if it is in the list, when keys differ. -/
theorem lookup_eq_some_iff_mem {κ : Type} [BEq κ] [LawfulBEq κ] {entries : List (κ × α)}
    (hdistinct : entries.Pairwise fun first second => first.1 ≠ second.1) {key : κ}
    {value : α} : entries.lookup key = some value ↔ (key, value) ∈ entries := by
  induction entries with
  | nil => simp
  | cons entry entries ih =>
    obtain ⟨other, found⟩ := entry
    obtain ⟨hhead, htail⟩ := List.pairwise_cons.mp hdistinct
    rw [List.lookup_cons, List.mem_cons, Prod.mk.injEq, ← ih htail]
    by_cases hkey : key = other
    · subst hkey
      have hnotMem : entries.lookup key ≠ some value := fun hlookup =>
        hhead _ ((ih htail).mp hlookup) rfl
      simp [hnotMem, eq_comm]
    · have hne : (key == other) = false := beq_false_of_ne hkey
      simp [hne, hkey]

/-- Entries with different keys are found in any order. -/
theorem lookup_eq_of_perm {κ : Type} [BEq κ] [LawfulBEq κ] {entries others : List (κ × α)}
    (hperm : entries.Perm others) (hnodup : (entries.map (·.1)).Nodup) (key : κ) :
    entries.lookup key = others.lookup key := by
  have hnodup' := (hperm.map (·.1)).nodup_iff.mp hnodup
  refine Option.ext fun value => ?_
  rw [lookup_eq_some_iff_mem (List.pairwise_map.mp hnodup),
    lookup_eq_some_iff_mem (List.pairwise_map.mp hnodup'), hperm.mem_iff]

/-- Raising a bound by one counts one more key if the bound was a key. -/
theorem countP_lt_succ {keys : List Nat} (hnodup : keys.Nodup) (bound : Nat) :
    keys.countP (· < bound + 1) = keys.countP (· < bound) + if bound ∈ keys then 1 else 0 := by
  induction keys with
  | nil => rfl
  | cons key keys ih =>
    obtain ⟨hnotMem, hnodup⟩ := List.nodup_cons.mp hnodup
    simp only [List.countP_cons, ih hnodup, decide_eq_true_eq, List.mem_cons]
    by_cases hkey : bound = key
    · subst hkey
      simp [hnotMem]
    · have hlt : key < bound + 1 ↔ key < bound := by omega
      simp only [hkey, hlt, false_or]
      omega

/-- An array has as many elements as can be read from it. -/
theorem size_eq_of_getElem? {array : Array α} {size : Nat} {element : Nat → α}
    (helements : ∀ i, array[i]? = if i < size then some (element i) else none) :
    array.size = size := by
  refine Nat.le_antisymm ?_ ?_
  · have hnone := helements size
    rw [if_neg (Nat.lt_irrefl _)] at hnone
    exact Array.getElem?_eq_none_iff.mp hnone
  · have hend := helements array.size
    rw [Array.getElem?_eq_none (Nat.le_refl _)] at hend
    by_contra hlt
    rw [if_pos (Nat.lt_of_not_le hlt)] at hend
    cases hend

end Lists

section Maps

variable {map : Std.TreeMap Nat α} {key : Nat}

/-- A key with a value is one of the keys of a map. -/
theorem mem_of_getElem?_eq_some {value : α} (hvalue : map[key]? = some value) : key ∈ map := by
  rw [Std.TreeMap.mem_iff_isSome_getElem?, hvalue]
  rfl

/-- A new entry of a map is listed beside the old ones. -/
theorem toList_insert_perm_of_not_mem (hnew : key ∉ map) (value : α) :
    (map.insert key value).toList.Perm ((key, value) :: map.toList) := by
  have hold : map.toList.filter (fun entry => decide ¬(key == entry.1) = true) = map.toList := by
    refine List.filter_eq_self.mpr fun ⟨other, found⟩ hentry => ?_
    have hfound := Std.TreeMap.mem_toList_iff_getElem?_eq_some.mp hentry
    have hne : key ≠ other := fun heq => hnew (heq ▸ mem_of_getElem?_eq_some hfound)
    simpa using hne
  rw [← hold]
  exact Std.TreeMap.toList_insert_perm

end Maps

section Outcomes

/-- Whether an outcome is a result with a decidable property is decidable. -/
instance decidableExistsOk {p : α → Prop} [DecidablePred p] :
    (outcome : Except ε α) → Decidable (∃ a, outcome = .ok a ∧ p a)
  | .ok a => decidable_of_iff (p a) (by simp)
  | .error _ => isFalse (by simp)

/-- A changed result is there if the result is. -/
theorem map_eq_ok_iff {f : α → β} {result : Except ε α} {b : β} :
    result.map f = .ok b ↔ ∃ a, result = .ok a ∧ f a = b := by
  cases result <;> simp [Except.map]

/-- A changed result fails as the result does. -/
theorem map_eq_error_iff {f : α → β} {result : Except ε α} {error : ε} :
    result.map f = .error error ↔ result = .error error := by
  cases result <;> simp [Except.map]

/-- An action on each element of a list succeeds exactly if it succeeds on every one. -/
theorem mapM_eq_ok_iff {f : α → Except ε β} {as : List α} {bs : List β} :
    as.mapM f = .ok bs ↔ List.Forall₂ (fun a b => f a = .ok b) as bs := by
  induction as generalizing bs with
  | nil => simp [pure, Except.pure, eq_comm]
  | cons a as ih =>
    rw [List.mapM_cons, List.forall₂_cons_left_iff]
    cases hhead : f a with
    | error error => simp [bind, Except.bind]
    | ok b =>
      cases htail : as.mapM f with
      | error error => simp [← ih, htail, bind, Except.bind]
      | ok cs => simp [← ih, htail, bind, Except.bind, pure, Except.pure, eq_comm]

/-- An action succeeds on the elements of a list exactly if it succeeds on each. -/
theorem exists_mapM_eq_ok_iff {f : α → Except ε β} {as : List α} :
    (∃ bs, as.mapM f = .ok bs) ↔ ∀ a ∈ as, ∃ b, f a = .ok b := by
  simp only [mapM_eq_ok_iff]
  exact exists_forall₂_iff

/-- An action on the elements of a list fails as it does on the first element for which it fails. -/
theorem mapM_eq_error_iff {f : α → Except ε β} {as : List α} {error : ε} :
    as.mapM f = .error error ↔
      ∃ before a after, as = before ++ a :: after ∧ (∀ b ∈ before, ∃ value, f b = .ok value) ∧
        f a = .error error := by
  induction as with
  | nil => simp [pure, Except.pure]
  | cons a as ih =>
    rw [List.mapM_cons]
    cases hhead : f a with
    | error other =>
      constructor
      · rintro ⟨⟩
        exact ⟨[], a, as, rfl, nofun, hhead⟩
      · rintro ⟨before, b, after, hsplit, hbefore, hfails⟩
        obtain ⟨rfl, hsplit⟩ | ⟨front, rfl, -⟩ := List.cons_eq_append_iff.mp hsplit
        · obtain ⟨rfl, -⟩ := List.cons.inj hsplit
          cases hhead.symm.trans hfails
          rfl
        · obtain ⟨value, hvalue⟩ := hbefore a List.mem_cons_self
          cases hhead.symm.trans hvalue
    | ok value =>
      have htail : (Except.ok value >>= fun b => as.mapM f >>= fun bs => pure (b :: bs)) =
          (.error error : Except ε (List β)) ↔ as.mapM f = .error error := by
        cases as.mapM f <;> simp [bind, Except.bind, pure, Except.pure]
      rw [htail, ih]
      constructor
      · rintro ⟨before, b, after, rfl, hbefore, hfails⟩
        have hbefore' := List.forall_mem_cons.mpr ⟨⟨value, hhead⟩, hbefore⟩
        exact ⟨a :: before, b, after, rfl, hbefore', hfails⟩
      · rintro ⟨before, b, after, hsplit, hbefore, hfails⟩
        obtain ⟨rfl, hsplit⟩ | ⟨front, rfl, rfl⟩ := List.cons_eq_append_iff.mp hsplit
        · obtain ⟨rfl, -⟩ := List.cons.inj hsplit
          cases hhead.symm.trans hfails
        · exact ⟨front, b, after, rfl, (List.forall_mem_cons.mp hbefore).2, hfails⟩

/-- An action on the elements of a list has results exactly if it has one for each element. -/
theorem mapM_eq_some_iff {f : α → Option β} {as : List α} {bs : List β} :
    as.mapM f = some bs ↔ List.Forall₂ (fun a b => f a = some b) as bs := by
  induction as generalizing bs with
  | nil => cases bs <;> simp
  | cons a as ih => cases bs <;> simp [List.mapM_cons, Option.bind_eq_some_iff, ← ih]

/-- A fold that is refused is refused at one of its elements. -/
theorem exists_of_foldlM_eq_error {step : β → α → Except ε β} {values : List α}
    {start : β} {error : ε} (hfold : values.foldlM step start = .error error) :
    ∃ value ∈ values, ∃ state, step state value = .error error := by
  induction values generalizing start with
  | nil => cases hfold
  | cons value values ih =>
    rw [List.foldlM_cons] at hfold
    cases hstep : step start value with
    | error other =>
      rw [hstep] at hfold
      cases hfold
      exact ⟨value, List.mem_cons_self, start, hstep⟩
    | ok next =>
      rw [hstep] at hfold
      obtain ⟨later, hmem, hlater⟩ := ih hfold
      exact ⟨later, List.mem_cons_of_mem _ hmem, hlater⟩

/-- If one action after another succeeds, both do. -/
theorem exists_of_isOk_bind {action : Except ε α} {next : α → Except ε β}
    (hok : (action >>= next).isOk = true) :
    ∃ a b, action = .ok a ∧ next a = .ok b := by
  cases action with
  | error error => cases hok
  | ok a =>
    change (next a).isOk = true at hok
    cases hnext : next a with
    | error error =>
      rw [hnext] at hok
      cases hok
    | ok b => exact ⟨a, b, rfl, hnext⟩

end Outcomes

end ChipEight
