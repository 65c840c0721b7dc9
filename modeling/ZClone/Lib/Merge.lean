import Mathlib.Data.Finset.Sort
import Mathlib.Data.Finset.Union
import Mathlib.Order.Lattice

/-!
# Merging two sorted listings

Two lists ordered by a key are walked side by side. Of every run of equal keys only the first entry counts
(`firsts`), and the walk gives one row for each key: the entry of the left list, of the right list, or both (`join`).
With `stop` the walk ends as soon as the left list is used up.

- `outerJoin` says what the rows are without walking: the keys in increasing order, each with the first entry of either
  list that has it.
- `mem_join_iff` and `join_pairwise` determine the rows of `join`.
- `outerJoin_eq_filterMap`: stopping only drops the rows above the greatest key on the left.
- **`join_firsts`**: the walk computes `outerJoin`.
-/

namespace ZClone.Merge

open List

variable {α β κ : Type*}

/-- The first entry of each run of equal keys; `prev` is the key passed last. -/
def firsts [DecidableEq κ] (key : α → κ) : Option κ → List α → List α
  | _, [] => []
  | prev, a :: as => if prev = some (key a) then firsts key prev as else a :: firsts key (some (key a)) as

/-- One row of a join. -/
inductive Row (α β : Type*) where
  | left (a : α)
  | right (b : β)
  | both (a : α) (b : β)
  deriving DecidableEq

def Row.key (ka : α → κ) (kb : β → κ) : Row α β → κ
  | .left a => ka a
  | .right b => kb b
  | .both a _ => ka a

section

variable [LinearOrder κ] [DecidableEq κ] (ka : α → κ) (kb : β → κ) (stop : Bool)

/-- The walk along two lists whose keys increase strictly. -/
def join : List α → List β → List (Row α β)
  | [], bs => if stop then [] else bs.map .right
  | a :: as, [] => .left a :: join as []
  | a :: as, b :: bs =>
    if ka a < kb b then .left a :: join as (b :: bs)
    else if kb b < ka a then .right b :: join (a :: as) bs
    else .both a b :: join as bs
termination_by as bs => as.length + bs.length

/-- The row of key `k`: the first entries of that key. -/
def rowAt (as : List α) (bs : List β) (k : κ) : Option (Row α β) :=
  match as.find? (ka · = k), bs.find? (kb · = k) with
  | some a, some b => some (.both a b)
  | some a, none => some (.left a)
  | none, some b => some (.right b)
  | none, none => none

/-- The keys that get a row: all of them or, with `stop`, those up to the greatest key on the left. -/
def rowKeys (as : List α) (bs : List β) : Finset κ :=
  ((as.map ka).toFinset ∪ (bs.map kb).toFinset).filter fun k => stop = true → ∃ a ∈ as, k ≤ ka a

/-- The rows of the join, in the order of their keys. -/
def outerJoin (as : List α) (bs : List β) : List (Row α β) :=
  ((rowKeys ka kb stop as bs).sort (· ≤ ·)).filterMap (rowAt ka kb as bs)

end

/-! ## First entries -/

variable {k : κ} {as : List α} {bs : List β} {a : α} {prev : Option κ} {r : Row α β}

section

variable [DecidableEq κ] {key : α → κ}

theorem firsts_cons_of_eq (as : List α) (h : prev = some (key a)) : firsts key prev (a :: as) = firsts key prev as := by
  rw [firsts, if_pos h]

theorem firsts_cons_of_ne (as : List α) (h : prev ≠ some (key a)) :
    firsts key prev (a :: as) = a :: firsts key (some (key a)) as := by
  rw [firsts, if_neg h]

theorem find?_firsts : ∀ {prev : Option κ} (as : List α), prev ≠ some k →
    (firsts key prev as).find? (key · = k) = as.find? (key · = k)
  | _, [], _ => rfl
  | prev, a :: as, hprev => by
    by_cases hdup : prev = some (key a)
    · have hne : key a ≠ k := fun h => hprev (h ▸ hdup)
      rw [firsts_cons_of_eq as hdup, find?_firsts as hprev, find?_cons_of_neg (by simpa using hne)]
    · rw [firsts_cons_of_ne as hdup]
      by_cases hk : key a = k
      · simp [hk]
      · rw [find?_cons_of_neg (by simpa using hk), find?_cons_of_neg (by simpa using hk)]
        exact find?_firsts as (by simpa using hk)

/-- The keys of a sorted list increase strictly along its first entries, and lie above the key passed before. -/
theorem firsts_pairwise [LinearOrder κ] : ∀ {prev : Option κ} {as : List α}, as.Pairwise (key · ≤ key ·) →
    (∀ p ∈ prev, ∀ a ∈ as, p ≤ key a) →
    (firsts key prev as).Pairwise (key · < key ·) ∧ ∀ p ∈ prev, ∀ a ∈ firsts key prev as, p < key a
  | _, [], _, _ => by simp [firsts]
  | prev, a :: as, hs, hp => by
    have hs' := pairwise_cons.mp hs
    by_cases hdup : prev = some (key a)
    · rw [firsts_cons_of_eq as hdup]
      exact firsts_pairwise hs'.2 fun p h b hb => hp p h b (mem_cons_of_mem _ hb)
    · rw [firsts_cons_of_ne as hdup]
      have ih : (firsts key (some (key a)) as).Pairwise (key · < key ·) ∧
          ∀ p ∈ some (key a), ∀ b ∈ firsts key (some (key a)) as, p < key b :=
        firsts_pairwise hs'.2 (by simpa using hs'.1)
      have hlt : ∀ b ∈ firsts key (some (key a)) as, key a < key b := ih.2 _ rfl
      refine ⟨pairwise_cons.mpr ⟨hlt, ih.1⟩, fun p h b hb => ?_⟩
      have hpa : p < key a := lt_of_le_of_ne (hp p h a mem_cons_self) fun he => hdup (by rw [h, he])
      rcases mem_cons.mp hb with rfl | hb
      · exact hpa
      · exact hpa.trans (hlt b hb)

end

/-! ## The rows of the walk -/

section

variable [LinearOrder κ] {ka : α → κ} {kb : β → κ} {stop : Bool}

theorem forall_lt_of_lt {key : α → κ} (has : (a :: as).Pairwise (key · < key ·)) (hlt : k < key a) :
    ∀ a' ∈ a :: as, k < key a' :=
  forall_mem_cons.mpr ⟨hlt, fun a' h => hlt.trans ((pairwise_cons.mp has).1 a' h)⟩

/-- The rows belonging to two lists of strictly increasing keys. -/
def IsRow (ka : α → κ) (kb : β → κ) (stop : Bool) (as : List α) (bs : List β) : Row α β → Prop
  | .left a => a ∈ as ∧ ∀ b ∈ bs, kb b ≠ ka a
  | .right b => b ∈ bs ∧ (∀ a ∈ as, ka a ≠ kb b) ∧ (stop = true → ∃ a ∈ as, kb b ≤ ka a)
  | .both a b => a ∈ as ∧ b ∈ bs ∧ ka a = kb b

theorem IsRow.lt_key (ha : ∀ a ∈ as, k < ka a) (hb : ∀ b ∈ bs, k < kb b) :
    ∀ {r : Row α β}, IsRow ka kb stop as bs r → k < r.key ka kb
  | .left a, h => ha a h.1
  | .right b, h => hb b h.1
  | .both a _, h => ha a h.1

section

variable (ha : as.Pairwise (ka · < ka ·)) (hb : bs.Pairwise (kb · < kb ·))

include ha hb

theorem mem_join_iff : ∀ r, r ∈ join ka kb stop as bs ↔ IsRow ka kb stop as bs r := by
  fun_induction join ka kb stop as bs with
  | case1 bs hstop | case2 bs hstop => rintro (a | b | ⟨a, b⟩) <;> simp [IsRow, hstop]
  | case3 a as ih =>
    have ih := ih (pairwise_cons.mp ha).2 hb
    rintro (a' | b' | ⟨a', b'⟩) <;> simp [IsRow, ih]
  | case4 a as b bs hlt ih =>
    -- every key on the right is above the row just taken
    have hbs := forall_lt_of_lt hb hlt
    have ih := ih (pairwise_cons.mp ha).2 hb
    rintro (a' | b' | ⟨a', b'⟩) <;> simp only [mem_cons, ih, IsRow] <;> grind
  | case5 a as b bs hlt hgt ih =>
    have has := forall_lt_of_lt ha hgt
    have ih := ih ha (pairwise_cons.mp hb).2
    rintro (a' | b' | ⟨a', b'⟩) <;> simp only [mem_cons, ih, IsRow] <;> grind
  | case6 a as b bs hlt hgt ih =>
    have has := (pairwise_cons.mp ha).1
    have hbs := (pairwise_cons.mp hb).1
    have ih := ih (pairwise_cons.mp ha).2 (pairwise_cons.mp hb).2
    rintro (a' | b' | ⟨a', b'⟩) <;> simp only [mem_cons, ih, IsRow] <;> grind

theorem lt_key_of_mem_join (hka : ∀ a ∈ as, k < ka a)
    (hkb : ∀ b ∈ bs, k < kb b) : ∀ r ∈ join ka kb stop as bs, k < r.key ka kb :=
  fun r hr => ((mem_join_iff ha hb r).mp hr).lt_key hka hkb

theorem join_pairwise : (join ka kb stop as bs).Pairwise (Row.key ka kb · < Row.key ka kb ·) := by
  fun_induction join ka kb stop as bs with
  | case1 bs hstop => exact List.Pairwise.nil
  | case2 bs hstop => simpa [pairwise_map, Row.key] using hb
  | case3 a as ih =>
    obtain ⟨hfirst, ha⟩ := pairwise_cons.mp ha
    exact pairwise_cons.mpr ⟨lt_key_of_mem_join ha hb hfirst (by simp), ih ha hb⟩
  | case4 a as b bs hlt ih =>
    obtain ⟨hfirst, ha⟩ := pairwise_cons.mp ha
    exact pairwise_cons.mpr ⟨lt_key_of_mem_join ha hb hfirst (forall_lt_of_lt hb hlt), ih ha hb⟩
  | case5 a as b bs hlt hgt ih =>
    obtain ⟨hfirst, hb⟩ := pairwise_cons.mp hb
    exact pairwise_cons.mpr ⟨lt_key_of_mem_join ha hb (forall_lt_of_lt ha hgt) hfirst, ih ha hb⟩
  | case6 a as b bs hlt hgt ih =>
    have heq : ka a = kb b := le_antisymm (not_lt.mp hgt) (not_lt.mp hlt)
    obtain ⟨hfirst, ha⟩ := pairwise_cons.mp ha
    obtain ⟨hfirst', hb⟩ := pairwise_cons.mp hb
    exact pairwise_cons.mpr ⟨lt_key_of_mem_join ha hb hfirst fun b' h => heq.trans_lt (hfirst' b' h), ih ha hb⟩

end

end

/-! ## The walk computes the join -/

section

variable [DecidableEq κ] {ka : α → κ} {kb : β → κ} {stop : Bool}

theorem mem_map_iff_find? {key : α → κ} : k ∈ as.map key ↔ (as.find? (key · = k)).isSome := by
  simp [find?_isSome]

theorem key_of_rowAt (h : rowAt ka kb as bs k = some r) : r.key ka kb = k := by
  unfold rowAt at h
  split at h <;> cases h
  case h_1 a b ha hb => simpa [Row.key] using find?_some ha
  case h_2 a ha hb => simpa [Row.key] using find?_some ha
  case h_3 b ha hb => simpa [Row.key] using find?_some hb

variable [LinearOrder κ]

/-- In a list of strictly increasing keys an entry is found by its key. -/
theorem find?_eq_some_iff {key : α → κ} : ∀ {as : List α}, as.Pairwise (key · < key ·) →
    (as.find? (key · = k) = some a ↔ a ∈ as ∧ key a = k)
  | [], _ => by simp
  | a' :: as, hs => by
    have hs' := pairwise_cons.mp hs
    by_cases hk : key a' = k
    · rw [find?_cons_of_pos (by simpa using hk), Option.some.injEq]
      constructor
      · rintro rfl
        exact ⟨mem_cons_self, hk⟩
      · rintro ⟨hmem, hka⟩
        rcases mem_cons.mp hmem with rfl | hmem
        · rfl
        · exact absurd (hk.trans hka.symm) (hs'.1 a hmem).ne
    · rw [find?_cons_of_neg (by simpa using hk), find?_eq_some_iff hs'.2, mem_cons]
      constructor
      · exact fun h => ⟨.inr h.1, h.2⟩
      · rintro ⟨rfl | hmem, hka⟩
        · exact absurd hka hk
        · exact ⟨hmem, hka⟩

theorem outerJoin_pairwise (as : List α) (bs : List β) :
    (outerJoin ka kb stop as bs).Pairwise (Row.key ka kb · < Row.key ka kb ·) := by
  refine List.Pairwise.filterMap _ (fun k k' hlt r hr r' hr' => ?_)
    (Finset.sortedLT_sort (rowKeys ka kb stop as bs)).pairwise
  rw [key_of_rowAt hr, key_of_rowAt hr']
  exact hlt

/-- The join reads its lists only through the first entry of each key. -/
theorem outerJoin_congr {as' : List α} {bs' : List β} (ha : ∀ k, as.find? (ka · = k) = as'.find? (ka · = k))
    (hb : ∀ k, bs.find? (kb · = k) = bs'.find? (kb · = k)) :
    outerJoin ka kb stop as bs = outerJoin ka kb stop as' bs' := by
  have hka : ∀ k, k ∈ as.map ka ↔ k ∈ as'.map ka := fun k => by rw [mem_map_iff_find?, ha, ← mem_map_iff_find?]
  have hkb : ∀ k, k ∈ bs.map kb ↔ k ∈ bs'.map kb := fun k => by rw [mem_map_iff_find?, hb, ← mem_map_iff_find?]
  have hbound : ∀ k, (∃ a ∈ as, k ≤ ka a) ↔ ∃ a ∈ as', k ≤ ka a := fun k => by
    have h := exists_congr fun k' => and_congr (hka k') (Iff.refl (k ≤ k'))
    simpa using h
  have hkeys : rowKeys ka kb stop as bs = rowKeys ka kb stop as' bs' := by
    ext k
    simp only [rowKeys, Finset.mem_filter, Finset.mem_union, mem_toFinset, hka, hkb, hbound]
  have hrow : rowAt ka kb as bs = rowAt ka kb as' bs' := funext fun k => by unfold rowAt; rw [ha, hb]
  rw [outerJoin, outerJoin, hkeys, hrow]

section

variable (ha : as.Pairwise (ka · < ka ·)) (hb : bs.Pairwise (kb · < kb ·))

include ha hb

/-- With strictly increasing keys, the row of a key is the row made of the entries of that key. -/
theorem rowAt_eq_some_iff : rowAt ka kb as bs k = some r ↔ r.key ka kb = k ∧ IsRow ka kb false as bs r := by
  have hsa : ∀ a, as.find? (ka · = k) = some a ↔ a ∈ as ∧ ka a = k := fun a => find?_eq_some_iff ha
  have hsb : ∀ b, bs.find? (kb · = k) = some b ↔ b ∈ bs ∧ kb b = k := fun b => find?_eq_some_iff hb
  unfold rowAt
  generalize as.find? (ka · = k) = fa at hsa ⊢
  generalize bs.find? (kb · = k) = fb at hsb ⊢
  rcases fa with _ | a <;> rcases fb with _ | b
  · rcases r with a' | b' | ⟨a', b'⟩ <;> simp only [Row.key, IsRow] <;> grind
  · have hfb := (hsb b).mp rfl
    rcases r with a' | b' | ⟨a', b'⟩ <;> simp only [Row.key, IsRow] <;> grind
  · have hfa := (hsa a).mp rfl
    rcases r with a' | b' | ⟨a', b'⟩ <;> simp only [Row.key, IsRow] <;> grind
  · have hfa := (hsa a).mp rfl
    have hfb := (hsb b).mp rfl
    rcases r with a' | b' | ⟨a', b'⟩ <;> simp only [Row.key, IsRow] <;> grind

theorem mem_outerJoin_iff (r : Row α β) : r ∈ outerJoin ka kb stop as bs ↔ IsRow ka kb stop as bs r := by
  have hmem : r ∈ outerJoin ka kb stop as bs ↔
      r.key ka kb ∈ rowKeys ka kb stop as bs ∧ IsRow ka kb false as bs r := by
    simp only [outerJoin, mem_filterMap, Finset.mem_sort, rowAt_eq_some_iff ha hb]
    exact ⟨fun ⟨k, hk, he, hr⟩ => ⟨he ▸ hk, hr⟩, fun ⟨hk, hr⟩ => ⟨_, hk, rfl, hr⟩⟩
  rw [hmem]
  rcases r with a | b | ⟨a, b⟩ <;> simp only [rowKeys, IsRow, Row.key, Finset.mem_filter, Finset.mem_union,
    mem_toFinset, mem_map] <;> grind

theorem join_eq_outerJoin : join ka kb stop as bs = outerJoin ka kb stop as bs := by
  have hperm : (join ka kb stop as bs).Perm (outerJoin ka kb stop as bs) := by
    refine (perm_ext_iff_of_nodup ?_ ?_).mpr fun r => ?_
    · exact (join_pairwise ha hb).imp fun h he => (he ▸ h).false
    · exact (outerJoin_pairwise as bs).imp fun h he => (he ▸ h).false
    · rw [mem_join_iff ha hb, mem_outerJoin_iff ha hb]
  exact hperm.eq_of_pairwise (fun r r' _ _ h h' => absurd h' h.asymm) (join_pairwise ha hb) (outerJoin_pairwise as bs)

end

theorem sort_filter {ι : Type*} [LinearOrder ι] (s : Finset ι) (p : ι → Prop) [DecidablePred p] :
    (s.filter p).sort (· ≤ ·) = (s.sort (· ≤ ·)).filter (p ·) := by
  have hperm : ((s.filter p).sort (· ≤ ·)).Perm ((s.sort (· ≤ ·)).filter (p ·)) := by
    refine (perm_ext_iff_of_nodup (Finset.sort_nodup _ _) ((Finset.sort_nodup _ _).filter _)).mpr fun k => ?_
    simp
  exact hperm.eq_of_pairwise (fun k k' _ _ h h' => le_antisymm h h') (Finset.pairwise_sort _ _)
    ((Finset.pairwise_sort _ _).filter _)

/-- The join as one pass over all the keys, `stop` dropping those above the greatest key on the left. -/
theorem outerJoin_eq_filterMap (as : List α) (bs : List β) :
    outerJoin ka kb stop as bs = ((rowKeys ka kb false as bs).sort (· ≤ ·)).filterMap fun k =>
      if stop = true → ∃ a ∈ as, k ≤ ka a then rowAt ka kb as bs k else none := by
  have hkeys : rowKeys ka kb stop as bs =
      (rowKeys ka kb false as bs).filter fun k => stop = true → ∃ a ∈ as, k ≤ ka a := by
    simp [rowKeys]
  rw [outerJoin, hkeys, sort_filter, filterMap_filter]
  simp only [decide_eq_true_eq]

/-- **The walk along two sorted lists, of each run of equal keys keeping the first entry, computes their join.** -/
theorem join_firsts (ha : as.Pairwise (ka · ≤ ka ·)) (hb : bs.Pairwise (kb · ≤ kb ·)) :
    join ka kb stop (firsts ka none as) (firsts kb none bs) = outerJoin ka kb stop as bs := by
  rw [join_eq_outerJoin (firsts_pairwise ha (by simp)).1 (firsts_pairwise hb (by simp)).1]
  exact outerJoin_congr (fun k => find?_firsts as (by simp)) fun k => find?_firsts bs (by simp)

end

end ZClone.Merge
