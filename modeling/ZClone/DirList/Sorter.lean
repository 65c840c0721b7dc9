import Mathlib.Data.List.Perm.Basic
import Mathlib.Data.List.Sort
import ZClone.Lib.Path

/-!
# Sorted listings (`fs/list/sorter.go`)

A `Sorter` takes the entries of a directory in batches and sends them sorted by a key. From a certain number of entries
on it gives them to an external sort, each as one string made of the key, a zero byte and the name, and makes the
entries again from the strings that come back.

- The external sort is a parameter, with the laws of a sort as hypotheses.
- `keyToEntry_entryToKey`: an entry whose key has no zero byte and whose name does not end with a slash comes back, a
  directory with nothing but its name.
- `send_spec`: what is sent are the entries that were added, sorted by key, with or without the external sort.
-/

namespace ZClone.DirList

open List
open Paths (Text slash)

/-- An object or a directory, with its name and all else there is to it. -/
inductive Entry (α : Type*) where
  | object (remote : Text) (data : α)
  | dir (remote : Text) (data : α)
  deriving DecidableEq

variable {α : Type*}

def Entry.remote : Entry α → Text
  | .object remote _ | .dir remote _ => remote

inductive SorterErr where
  /-- sorter: failed to deserialize: missing null -/
  | missingNull
  /-- sorter: failed to re-create object -/
  | recreate (remote : Text)
  deriving DecidableEq

structure SorterEnv (α : Type*) where
  keyFn : Entry α → Text
  /-- `NewObject` of the remote; nothing if it returns an error. -/
  newObject : Text → Option (Entry α)
  cutoff : Int
  extSort : List Text → List Text
  /-- What `NewDir` fills in with no time. -/
  blank : α

section Code

variable (env : SorterEnv α)

def entryToKey (entry : Entry α) : Text :=
  let remote := entry.remote.rdropWhile (· = slash)
  env.keyFn entry ++ 0 :: match entry with
    | .object _ _ => remote
    | .dir _ _ => remote ++ [slash]

def keyToEntry (key : Text) : Except SorterErr (Entry α) :=
  match key.dropWhile (· ≠ 0) with
  | [] => .error .missingNull
  | _ :: remote =>
    if remote.getLast? = some slash then .ok (.dir remote.dropLast env.blank)
    else
      match env.newObject remote with
      | some obj => .ok obj
      | none => .error (.recreate remote)

structure Sorter (α : Type*) where
  entries : List (Entry α) := []
  extSort : Bool := false
  /-- The strings sent to the external sort. -/
  input : List Text := []

def add (s : Sorter α) (entries : List (Entry α)) : Sorter α :=
  if s.extSort then { s with input := s.input ++ entries.map (entryToKey env) }
  else
    let entries := s.entries ++ entries
    if env.cutoff ≤ entries.length then { entries := [], extSort := true, input := entries.map (entryToKey env) }
    else { s with entries }

def listHelperBatchSize : Nat := 100

/-- The keys of the batch, the batches sent to the callback, and the errors. -/
structure ListHelper (α : Type*) where
  keys : List Text := []
  sent : List (List (Entry α)) := []
  errs : List SorterErr := []

def oks (keys : List Text) : List (Entry α) := keys.filterMap fun key => (keyToEntry env key).toOption

def failures (keys : List Text) : List SorterErr :=
  keys.filterMap fun key => match keyToEntry env key with
    | .ok _ => none
    | .error err => some err

def ListHelper.send (max : Nat) (lh : ListHelper α) : ListHelper α :=
  if lh.keys.length < max then lh
  else { keys := [], sent := lh.sent ++ [oks env lh.keys], errs := lh.errs ++ failures env lh.keys }

def ListHelper.add (lh : ListHelper α) (key : Text) : ListHelper α :=
  ListHelper.send env listHelperBatchSize { lh with keys := lh.keys ++ [key] }

def ListHelper.flush (lh : ListHelper α) : ListHelper α := lh.send env 1

/-- What the callback gets, and the errors that `Send` returns. -/
def send (s : Sorter α) : List (List (Entry α)) × List SorterErr :=
  if s.extSort then
    let lh := ((env.extSort s.input).foldl (ListHelper.add env) {}).flush env
    (lh.sent, lh.errs)
  else ([s.entries.insertionSort fun a b => env.keyFn a ≤ env.keyFn b], [])

end Code

variable {env : SorterEnv α}

/-! ## Keys -/

/-- What is left of an entry: of a directory only its name. -/
def minimal (env : SorterEnv α) : Entry α → Entry α
  | .object remote data => .object remote data
  | .dir remote _ => .dir remote env.blank

/-- The entry can be told from its string. -/
structure Plain (env : SorterEnv α) (e : Entry α) : Prop where
  key : 0 ∉ env.keyFn e
  name : e.remote.getLast? ≠ some slash
  found : ∀ remote data, e = .object remote data → env.newObject remote = some e

theorem rdropWhile_slash {p : Text} (h : p.getLast? ≠ some slash) : p.rdropWhile (· = slash) = p := by
  rw [rdropWhile_eq_self_iff]
  intro hp
  rw [getLast?_eq_getLast_of_ne_nil hp] at h
  simpa using h

theorem dropWhile_key {k : Text} (hk : 0 ∉ k) (rest : Text) : (k ++ 0 :: rest).dropWhile (· ≠ 0) = 0 :: rest := by
  have hall : ∀ c ∈ k, decide (c ≠ 0) = true := fun c hc => decide_eq_true fun heq => hk (heq ▸ hc)
  rw [dropWhile_append_of_pos hall]
  rfl

theorem keyToEntry_entryToKey {e : Entry α} (h : Plain env e) :
    keyToEntry env (entryToKey env e) = .ok (minimal env e) := by
  cases e with have hname : remote.getLast? ≠ some slash := h.name
  | object remote data =>
    simp only [entryToKey, keyToEntry, dropWhile_key h.key, Entry.remote, rdropWhile_slash hname, if_neg hname,
      h.found remote data rfl, minimal]
  | dir remote data =>
    have hlast : (remote ++ [slash]).getLast? = some slash := getLast?_concat
    simp only [entryToKey, keyToEntry, dropWhile_key h.key, Entry.remote, rdropWhile_slash hname, if_pos hlast,
      dropLast_concat, minimal]

/-- The zero byte sorts before all that keys have. -/
theorem le_of_append_zero : ∀ {k k' : Text} {r r' : Text}, 0 ∉ k → 0 ∉ k' → k ++ 0 :: r ≤ k' ++ 0 :: r' → k ≤ k'
  | [], k', _, _, _, _, _ => nil_le k'
  | c :: k, [], r, r', hk, _, h => by
    rcases cons_le_cons_iff.mp h with hlt | ⟨rfl, -⟩
    · exact absurd hlt (UInt8.not_lt_zero)
    · exact absurd mem_cons_self hk
  | c :: k, c' :: k', r, r', hk, hk', h => by
    rw [mem_cons, not_or] at hk hk'
    rcases cons_le_cons_iff.mp h with hlt | ⟨heq, hle⟩
    · exact cons_le_cons_iff.mpr (.inl hlt)
    · exact cons_le_cons_iff.mpr (.inr ⟨heq, le_of_append_zero hk.2 hk'.2 hle⟩)

/-! ## Sending -/

theorem oks_append (keys keys' : List Text) : oks env (keys ++ keys') = oks env keys ++ oks env keys' :=
  filterMap_append

theorem failures_append (keys keys' : List Text) :
    failures env (keys ++ keys') = failures env keys ++ failures env keys' :=
  filterMap_append

/-- Sending a batch does not change what is sent in the end. -/
theorem ListHelper.send_total (env : SorterEnv α) (max : Nat) (lh : ListHelper α) :
    (lh.send env max).sent.flatten ++ oks env (lh.send env max).keys = lh.sent.flatten ++ oks env lh.keys ∧
      (lh.send env max).errs ++ failures env (lh.send env max).keys = lh.errs ++ failures env lh.keys := by
  rw [ListHelper.send]
  split_ifs
  · exact ⟨rfl, rfl⟩
  · simp [oks, failures]

theorem ListHelper.foldl_add (env : SorterEnv α) (keys : List Text) (lh : ListHelper α) :
    let lh' := keys.foldl (ListHelper.add env) lh
    lh'.sent.flatten ++ oks env lh'.keys = lh.sent.flatten ++ oks env (lh.keys ++ keys) ∧
      lh'.errs ++ failures env lh'.keys = lh.errs ++ failures env (lh.keys ++ keys) := by
  induction keys generalizing lh with
  | nil => simp
  | cons key keys ih =>
    obtain ⟨hsent, herrs⟩ := ih (lh.add env key)
    obtain ⟨hsent', herrs'⟩ := ListHelper.send_total env listHelperBatchSize { lh with keys := lh.keys ++ [key] }
    rw [oks_append, ← append_assoc] at hsent
    rw [failures_append, ← append_assoc] at herrs
    refine ⟨hsent.trans ?_, herrs.trans ?_⟩
    · rw [ListHelper.add, hsent', append_assoc, ← oks_append]
      simp
    · rw [ListHelper.add, herrs', append_assoc, ← failures_append]
      simp

theorem ListHelper.flush_keys (lh : ListHelper α) : (lh.flush env).keys = [] := by
  rw [ListHelper.flush, ListHelper.send]
  split_ifs with hempty
  · exact length_eq_zero_iff.mp (by omega)
  · rfl

/-- The batches together are the entries of all keys. -/
theorem sent_extSort (env : SorterEnv α) (keys : List Text) :
    let lh := (keys.foldl (ListHelper.add env) ({} : ListHelper α)).flush env
    lh.sent.flatten = oks env keys ∧ lh.errs = failures env keys := by
  intro lh
  obtain ⟨hsent, herrs⟩ := ListHelper.foldl_add env keys {}
  obtain ⟨hsent', herrs'⟩ := ListHelper.send_total env 1 (keys.foldl (ListHelper.add env) {})
  have hkeys : lh.keys = [] := ListHelper.flush_keys _
  refine ⟨?_, ?_⟩
  · have htotal := hsent'.trans hsent
    rw [show (ListHelper.send env 1 _).keys = [] from hkeys] at htotal
    exact (append_nil _).symm.trans htotal
  · have htotal := herrs'.trans herrs
    rw [show (ListHelper.send env 1 _).keys = [] from hkeys] at htotal
    exact (append_nil _).symm.trans htotal

/-- What has been added is in one of the two places. -/
theorem foldl_add (env : SorterEnv α) (batches : List (List (Entry α))) (s : Sorter α) :
    let s' := batches.foldl (add env) s
    (s.extSort = true → s'.extSort = true ∧ s'.input = s.input ++ batches.flatten.map (entryToKey env)) ∧
      (s.extSort = false → (s'.extSort = true ∧ s'.input = (s.entries ++ batches.flatten).map (entryToKey env)) ∨
        (s'.extSort = false ∧ s'.entries = s.entries ++ batches.flatten)) := by
  induction batches generalizing s with
  | nil => exact ⟨fun h => ⟨h, by simp⟩, fun h => .inr ⟨h, by simp⟩⟩
  | cons entries batches ih =>
    obtain ⟨hext, hmem⟩ := ih (add env s entries)
    rw [foldl_cons, flatten_cons]
    refine ⟨fun h => ?_, fun h => ?_⟩
    · have hadd : add env s entries = { s with input := s.input ++ entries.map (entryToKey env) } := if_pos h
      obtain ⟨h₁, h₂⟩ := hext (by rw [hadd]; exact h)
      refine ⟨h₁, h₂.trans ?_⟩
      rw [hadd]
      simp
    · rw [add, if_neg (by simp [h])] at hext hmem ⊢
      dsimp only at hext hmem ⊢
      split_ifs at hext hmem ⊢
      · obtain ⟨h₁, h₂⟩ := hext rfl
        exact .inl ⟨h₁, by rw [h₂]; simp⟩
      · simpa [append_assoc] using hmem h

section Send

variable {batches : List (List (Entry α))}

theorem send_inMemory (h : (batches.foldl (add env) {}).extSort = false) :
    ∃ es, es.Perm batches.flatten ∧ es.Pairwise (fun a b => env.keyFn a ≤ env.keyFn b) ∧
      send env (batches.foldl (add env) {}) = ([es], []) := by
  have hentries : (batches.foldl (add env) {}).entries = batches.flatten := by
    rcases (foldl_add env batches {}).2 rfl with ⟨hext, -⟩ | ⟨-, hentries⟩
    · rw [h] at hext
      cases hext
    · exact hentries
  refine ⟨_, ?_, List.pairwise_insertionSort _ (batches.foldl (add env) {}).entries, if_neg (by rw [h]; simp)⟩
  exact (List.perm_insertionSort _ _).trans (.of_eq hentries)

theorem send_onDisk (h : (batches.foldl (add env) {}).extSort = true)
    (hsort : ∀ keys, (env.extSort keys).Perm keys ∧ (env.extSort keys).Pairwise (· ≤ ·))
    (hplain : ∀ e ∈ batches.flatten, Plain env e) :
    ∃ es : List (Entry α), es.Perm batches.flatten ∧ es.Pairwise (fun a b => env.keyFn a ≤ env.keyFn b) ∧
      (send env (batches.foldl (add env) {})).1.flatten = es.map (minimal env) ∧
        (send env (batches.foldl (add env) {})).2 = [] := by
  have hinput : (batches.foldl (add env) {}).input = batches.flatten.map (entryToKey env) := by
    rcases (foldl_add env batches {}).2 rfl with ⟨-, hinput⟩ | ⟨hext, -⟩
    · exact hinput
    · rw [h] at hext
      cases hext
  have hsend : send env (batches.foldl (add env) {}) = (_, _) := if_pos h
  rw [hsend, hinput]
  obtain ⟨hperm, hsorted⟩ := hsort (batches.flatten.map (entryToKey env))
  -- the strings that come back are those of the entries in some order
  have hback : List.Forall₂ (fun key e => key = entryToKey env e) (batches.flatten.map (entryToKey env))
    batches.flatten :=
    forall₂_map_left_iff.mpr (forall₂_same.mpr fun _ _ => rfl)
  obtain ⟨es, hkeys, hes⟩ := perm_comp_forall₂ hperm hback
  have hmap : env.extSort (batches.flatten.map (entryToKey env)) = es.map (entryToKey env) := by
    rw [← forall₂_eq_eq_eq, forall₂_map_right_iff]
    exact hkeys
  have hplain' : ∀ e ∈ es, Plain env e := fun e he => hplain e (hes.mem_iff.mp he)
  have hoks : oks env (es.map (entryToKey env)) = es.map (minimal env) := by
    rw [oks, filterMap_map, ← filterMap_eq_map]
    exact filterMap_congr fun e he => by
      simp only [Function.comp_apply, keyToEntry_entryToKey (hplain' e he)]
      rfl
  have hfailures : failures env (es.map (entryToKey env)) = [] := by
    rw [failures, filterMap_map, filterMap_eq_nil_iff]
    intro e he
    simp only [Function.comp_apply, keyToEntry_entryToKey (hplain' e he)]
  obtain ⟨hsent, herrs⟩ := sent_extSort env (es.map (entryToKey env))
  rw [hmap] at hsorted ⊢
  refine ⟨es, hes, (pairwise_map.mp hsorted).imp_of_mem fun ha hb hle => ?_, hsent.trans hoks, herrs.trans hfailures⟩
  exact le_of_append_zero (hplain' _ ha).key (hplain' _ hb).key hle

theorem extSort_eq_false (h : (batches.flatten.length : Int) < env.cutoff) :
    (batches.foldl (add env) {}).extSort = false := by
  suffices ∀ (bs : List (List (Entry α))) (s : Sorter α), s.extSort = false →
    ((s.entries ++ bs.flatten).length : Int) < env.cutoff →
      (bs.foldl (add env) s).extSort = false from this batches {} rfl h
  intro bs
  induction bs with
  | nil => exact fun s hext _ => hext
  | cons entries bs ih =>
    intro s hext hlt
    rw [flatten_cons, length_append, length_append] at hlt
    have hadd : add env s entries = { s with entries := s.entries ++ entries } := by
      rw [add, if_neg (by simp [hext])]
      refine if_neg ?_
      rw [length_append]
      omega
    rw [foldl_cons, hadd]
    refine ih _ hext ?_
    simp only [length_append]
    omega

/-- Whatever the batches and the cutoff, the entries are sent sorted by key; on disk a directory loses all but its
name. -/
theorem send_spec (env : SorterEnv α) (batches : List (List (Entry α)))
    (hsort : ∀ keys, (env.extSort keys).Perm keys ∧ (env.extSort keys).Pairwise (· ≤ ·))
    (hplain : ∀ e ∈ batches.flatten, Plain env e) :
    let s := batches.foldl (add env) {}
    ∃ es, es.Perm batches.flatten ∧ es.Pairwise (fun a b => env.keyFn a ≤ env.keyFn b) ∧ (send env s).2 = [] ∧
      (send env s).1.flatten = if s.extSort then es.map (minimal env) else es := by
  intro s
  cases hext : s.extSort with
  | true =>
    obtain ⟨es, hes, hsorted, hsent, herrs⟩ := send_onDisk hext hsort hplain
    exact ⟨es, hes, hsorted, herrs, hsent⟩
  | false =>
    obtain ⟨es, hes, hsorted, hsend⟩ := send_inMemory hext
    refine ⟨es, hes, hsorted, ?_, ?_⟩
    · rw [hsend]
    · rw [hsend]
      simp

end Send

/-- Sorting by name, on disk from the first entry on. -/
def onDisk : SorterEnv Nat where
  keyFn := Entry.remote
  newObject remote := some (.object remote 0)
  cutoff := 1
  extSort keys := keys.insertionSort (· ≤ ·)
  blank := 0

/-- An object and a directory with a name before it. -/
theorem send_two : let batches : List (List (Entry Nat)) := [[.object [98] 0], [.dir [97] 7]]
    ∃ es : List (Entry Nat), es.Perm batches.flatten ∧ es.Pairwise (fun a b => onDisk.keyFn a ≤ onDisk.keyFn b) ∧
      (send onDisk (batches.foldl (add onDisk) {})).2 = [] ∧
      (send onDisk (batches.foldl (add onDisk) {})).1.flatten = es.map (minimal onDisk) := by
  refine send_spec onDisk _ (fun keys => ⟨List.perm_insertionSort _ keys, List.pairwise_insertionSort _ keys⟩) ?_
  simp only [flatten_cons, flatten_nil, cons_append, nil_append, forall_mem_cons]
  refine ⟨⟨by decide, by decide, ?_⟩, ⟨by decide, by decide, ?_⟩, by simp⟩
  · rintro remote data ⟨⟩
    rfl
  · rintro remote data ⟨⟩

/-- On disk a directory loses what it had besides its name, an object whose name ends with a slash comes back under
another name, and so does an entry whose key has a zero byte. -/
theorem send_not_same : (send onDisk (add onDisk {} [.dir [97] 7])).1 = [[.dir [97] 0]] ∧
      (send onDisk (add onDisk {} [.object [97, slash] 0])).1 = [[.object [97] 0]] ∧
      (send { onDisk with keyFn := fun _ => [98, 0] }
        (add { onDisk with keyFn := fun _ => [98, 0] } {} [.object [97] 0])).1 = [[.object [0, 97] 0]] := by
  decide +kernel

end ZClone.DirList
