import Mathlib.Logic.Function.Basic
import Mathlib.Tactic.SplitIfs

/-!
# Caches filled on demand

A cache maps keys to entries; an entry is a value with the error its creation ended with, if that was worth keeping.

- `get` looks a key up and creates the entry when it is missing; the creation may change a state of its own.
- `rename` moves an entry to another key, where an entry that is already there wins.
- `remove` is what expiry does to one key.

`Holds P c` says that every entry of `c` is as `P` wants it for its key. Each operation keeps it, so what a hit proves
about a value is what its creation established, whatever happened to the cache in between.
-/

namespace ZClone

structure Cache.Entry (ν ε : Type) where
  value : ν
  err : Option ε

structure Cache (κ ν ε : Type) where
  entries : κ → Option (Cache.Entry ν ε)
  /-- Nothing is kept. -/
  noCache : Bool

namespace Cache

variable {κ ν ε σ : Type}

/-- Every entry is as `P` wants it for its key. -/
def Holds (P : κ → ν → Prop) (c : Cache κ ν ε) : Prop := ∀ key e, c.entries key = some e → P key e.value

variable {P : κ → ν → Prop} {c : Cache κ ν ε} {key : κ}

theorem Holds.mono {Q : κ → ν → Prop} (h : c.Holds P) (hPQ : ∀ key v, P key v → Q key v) : c.Holds Q :=
  fun key e he => hPQ key _ (h key e he)

def empty (noCache : Bool) : Cache κ ν ε := ⟨fun _ => none, noCache⟩

theorem holds_empty (noCache : Bool) : (empty noCache : Cache κ ν ε).Holds P := nofun

def getMaybe (c : Cache κ ν ε) (key : κ) : Option ν := (c.entries key).map (·.value)

theorem Holds.getMaybe (h : c.Holds P) {v : ν} (hv : c.getMaybe key = some v) : P key v := by
  obtain ⟨e, he, rfl⟩ := Option.map_eq_some_iff.mp hv
  exact h key e he

variable [DecidableEq κ] {e : Entry ν ε}

section

variable (c : Cache κ ν ε) (key : κ)

def store (e : Entry ν ε) : Cache κ ν ε :=
  { c with entries := Function.update c.entries key (some e) }

def remove : Cache κ ν ε := { c with entries := Function.update c.entries key none }

/-- A fresh entry is kept unless nothing is. -/
def keep (e : Entry ν ε) : Cache κ ν ε := if c.noCache then c else c.store key e

def get (create : σ → Except ε (Entry ν ε) × σ) (s : σ) : Except ε (Entry ν ε) × Cache κ ν ε × σ :=
  match c.entries key with
  | some e => (.ok e, c, s)
  | none =>
    match create s with
    | (.error err, s') => (.error err, c, s')
    | (.ok e, s') => (.ok e, c.keep key e, s')

def put (value : ν) : Cache κ ν ε := c.keep key ⟨value, none⟩

end

def rename (c : Cache κ ν ε) (oldKey newKey : κ) : Option ν × Cache κ ν ε :=
  match c.entries newKey with
  | some e => (some e.value, c.remove oldKey)
  | none =>
    match c.entries oldKey with
    | some e => (some e.value, (c.store newKey e).remove oldKey)
    | none => (none, c)

/-! ## What the entries are -/

theorem entries_store (c : Cache κ ν ε) (key k : κ) (e : Entry ν ε) :
    (c.store key e).entries k = if k = key then some e else c.entries k := Function.update_apply ..

theorem entries_remove (c : Cache κ ν ε) (key k : κ) :
    (c.remove key).entries k = if k = key then none else c.entries k := Function.update_apply ..

theorem Holds.store (h : c.Holds P) (he : P key e.value) : (c.store key e).Holds P := by
  intro k e' hk
  rw [entries_store] at hk
  split_ifs at hk with hkey
  · cases hk
    exact hkey ▸ he
  · exact h k e' hk

theorem Holds.remove (h : c.Holds P) (key : κ) : (c.remove key).Holds P := by
  intro k e hk
  rw [entries_remove] at hk
  split_ifs at hk with hkey
  exact h k e hk

theorem Holds.keep (h : c.Holds P) (he : P key e.value) : (c.keep key e).Holds P := by
  unfold Cache.keep
  split_ifs
  · exact h
  · exact h.store he

/-- What `get` can do: hit, fail to create, or create and keep. -/
theorem get_cases (c : Cache κ ν ε) (key : κ) (create : σ → Except ε (Entry ν ε) × σ) (s : σ) :
    (∃ e, c.entries key = some e ∧ c.get key create s = (.ok e, c, s)) ∨
      (c.entries key = none ∧ ∃ err, (create s).1 = .error err ∧ c.get key create s = (.error err, c, (create s).2)) ∨
      (c.entries key = none ∧ ∃ e, (create s).1 = .ok e ∧
        c.get key create s = (.ok e, c.keep key e, (create s).2)) := by
  unfold get
  cases hkey : c.entries key with
  | some e => exact .inl ⟨e, rfl, rfl⟩
  | none =>
    rcases hcreate : create s with ⟨_ | e, s'⟩
    · exact .inr (.inl ⟨rfl, _, rfl, rfl⟩)
    · exact .inr (.inr ⟨rfl, e, rfl, rfl⟩)

theorem Holds.rename (h : c.Holds P) {oldKey newKey : κ} (hmove : ∀ v, P oldKey v → P newKey v) :
    (c.rename oldKey newKey).2.Holds P ∧ ∀ v, (c.rename oldKey newKey).1 = some v → P newKey v := by
  unfold Cache.rename
  cases hnew : c.entries newKey with
  | some e =>
    refine ⟨h.remove oldKey, fun v hv => ?_⟩
    cases hv
    exact h newKey e hnew
  | none =>
    cases hold : c.entries oldKey with
    | none => exact ⟨h, nofun⟩
    | some e =>
      have he : P newKey e.value := hmove _ (h oldKey e hold)
      refine ⟨(h.store he).remove oldKey, fun v hv => ?_⟩
      cases hv
      exact he

end Cache

end ZClone
