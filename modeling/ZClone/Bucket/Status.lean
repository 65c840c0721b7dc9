import ZClone.Lib.Run

/-!
# Whether a bucket is there (`lib/bucket/bucket.go`)

`Create` and `Remove` record what became of a bucket. Each has a mutex of its own, and both drop the one of the status
while they call the remote.

- `next` has a step for each part between two lock operations; the calls of the remote are steps as well.
- `Inv` holds as long as no `Create` calls the remote while a `Remove` does (`trustworthy`). If they do, the status can
  be that of the call that was first (`status_lies`).
-/

namespace ZClone.Bucket

section Code

/-- Where the call is that holds `createMu`, or `removeMu`. -/
inductive Phase where
  | idle
  | calling
  /-- The remote has answered; without an error if `ok`. -/
  | called (ok : Bool)
  deriving DecidableEq

structure State where
  /-- The bucket is there. -/
  present : Bool
  status : Option Bool
  create : Phase
  remove : Phase
  deriving DecidableEq

/-- A call of `Create` may have no function `exists`; if it has one, `some ok` says that it does not fail. -/
inductive Action where
  | createEnter (exists_ : Option Bool)
  | createCall (ok : Bool)
  | createLeave
  | removeEnter
  | removeCall (ok : Bool)
  | removeLeave

/-- `Create` up to the call of `create`. -/
def createEnter (s : State) (exists_ : Option Bool) : State × Option Bool :=
  if s.status = some false ∧ exists_ = some false then (s, some false)
  else if s.status = some false ∧ exists_ = some true ∧ s.present then ({ s with status := some true }, some true)
  else if s.status = some true then (s, some true)
  else ({ s with create := .calling }, none)

/-- With whether `Create` has returned `nil`, if it returns. -/
def next (s : State) : Action → Option (State × Option Bool)
  | .createEnter exists_ => if s.create ≠ .idle then none else some (createEnter s exists_)
  | .createCall ok =>
    if s.create ≠ .calling then none else some ({ s with create := .called ok, present := ok || s.present }, none)
  | .createLeave =>
    match s.create with
    | .called ok => some ({ s with create := .idle, status := if ok then some true else s.status }, some ok)
    | _ => none
  | .removeEnter =>
    if s.remove ≠ .idle then none
    else if s.status = some false then some (s, none)
    else some ({ s with remove := .calling }, none)
  | .removeCall ok =>
    if s.remove ≠ .calling then none else some ({ s with remove := .called ok, present := !ok && s.present }, none)
  | .removeLeave =>
    match s.remove with
    | .called ok => some ({ s with remove := .idle, status := if ok then some false else s.status }, none)
    | _ => none

def start (present : Bool) : State := ⟨present, none, .idle, .idle⟩

end Code

/-- No `Create` calls the remote while a `Remove` does. -/
def Apart (s : State) : Prop := s.create = .idle ∨ s.remove = .idle

/-- A step to a state in which the calls of the remote are apart. -/
def Next (s s' : State) : Prop := (∃ a r, next s a = some (s', r)) ∧ Apart s'

def Accurate (s : State) : Prop := ∀ b, s.status = some b → s.present = b

/-- The status is right, but for what the remote has just answered. -/
structure Inv (s : State) : Prop where
  created : s.create = .called true → s.present = true
  removed : s.remove = .called true → s.present = false
  accurate : s.create ≠ .called true → s.remove ≠ .called true → Accurate s

variable {s s' : State} {r : Option Bool} {a : Action}

theorem inv_start (present : Bool) : Inv (start present) := ⟨nofun, nofun, fun _ _ => nofun⟩

/-- A call of `Create` begins: nothing changes, or the status is found out, or the remote is called. -/
theorem createEnter_cases {exists_ : Option Bool} (h : createEnter s exists_ = (s', r)) :
    s' = s ∧ (r = some true → s.status = some true) ∨ s' = { s with status := some true } ∧ s.present = true ∨
      s' = { s with create := .calling } ∧ r = none := by
  rw [createEnter] at h
  split_ifs at h with hfails hfound hknown <;> cases h
  · exact .inl ⟨rfl, nofun⟩
  · exact .inr (.inl ⟨rfl, hfound.2.2⟩)
  · exact .inl ⟨rfl, fun _ => hknown⟩
  · exact .inr (.inr ⟨rfl, rfl⟩)

theorem Inv.step (h : Inv s) (hnext : next s a = some (s', r)) (hapart : Apart s') : Inv s' := by
  cases a with rw [next] at hnext
  | createEnter exists_ =>
    split_ifs at hnext with hidle
    obtain ⟨rfl, -⟩ | ⟨rfl, hpresent⟩ | ⟨rfl, -⟩ := createEnter_cases (Option.some.inj hnext)
    · exact h
    · refine ⟨h.created, h.removed, fun _ _ b hb => ?_⟩
      cases hb
      exact hpresent
    · exact ⟨nofun, h.removed, fun _ => h.accurate (by rw [not_not.mp hidle]; nofun)⟩
  | createCall ok =>
    split_ifs at hnext with hcalling
    cases hnext
    have hremove : s.remove = .idle := hapart.resolve_left nofun
    refine ⟨?_, fun hr => ?_, fun hc hr => ?_⟩
    · rintro ⟨⟩
      rfl
    · rw [hremove] at hr
      cases hr
    · cases ok with
      | true => exact absurd rfl hc
      | false => exact h.accurate (by rw [not_not.mp hcalling]; nofun) hr
  | createLeave =>
    split at hnext
    case h_2 => cases hnext
    case h_1 ok hcalled =>
      cases hnext
      refine ⟨nofun, h.removed, fun _ hr b hb => ?_⟩
      cases ok with
      | true =>
        cases hb
        exact h.created hcalled
      | false => exact h.accurate (by rw [hcalled]; nofun) hr b hb
  | removeEnter =>
    split_ifs at hnext with hidle hstatus
    · cases hnext
      exact h
    · cases hnext
      exact ⟨h.created, nofun, fun hc _ => h.accurate hc (by rw [not_not.mp hidle]; nofun)⟩
  | removeCall ok =>
    split_ifs at hnext with hcalling
    cases hnext
    have hcreate : s.create = .idle := hapart.resolve_right nofun
    refine ⟨fun hc => ?_, ?_, fun hc hr => ?_⟩
    · rw [hcreate] at hc
      cases hc
    · rintro ⟨⟩
      rfl
    · cases ok with
      | true => exact absurd rfl hr
      | false => exact h.accurate hc (by rw [not_not.mp hcalling]; nofun)
  | removeLeave =>
    split at hnext
    case h_2 => cases hnext
    case h_1 ok hcalled =>
      cases hnext
      refine ⟨h.created, nofun, fun hc _ b hb => ?_⟩
      cases ok with
      | true =>
        cases hb
        exact h.removed hcalled
      | false => exact h.accurate hc (by rw [hcalled]; nofun) b hb

/-- A `Create` that returns `nil` while no `Remove` is under way leaves the bucket there. -/
theorem Inv.present_of_nil (h : Inv s) (hremove : s.remove = .idle) (hnext : next s a = some (s', some true)) :
    s'.present = true := by
  cases a with rw [next] at hnext
  | createEnter exists_ =>
    split_ifs at hnext with hidle
    obtain ⟨rfl, hstatus⟩ | ⟨rfl, hpresent⟩ | ⟨-, hr⟩ := createEnter_cases (Option.some.inj hnext)
    · exact h.accurate (by rw [not_not.mp hidle]; nofun) (by rw [hremove]; nofun) true (hstatus rfl)
    · exact hpresent
    · cases hr
  | createLeave =>
    split at hnext
    case h_2 => cases hnext
    case h_1 ok hcalled =>
      cases hnext
      exact h.created hcalled
  | createCall ok | removeCall ok | removeEnter =>
    split_ifs at hnext <;> cases hnext
  | removeLeave =>
    split at hnext <;> cases hnext

/-- If the calls of the remote are apart all along, the status is right whenever no call is under way, and a `Create`
that returns `nil` while no `Remove` is under way leaves the bucket there. -/
theorem trustworthy {present : Bool} (hrun : Relation.ReflTransGen Next (start present) s) :
    (s.create = .idle → s.remove = .idle → Accurate s) ∧
      ∀ a s', s.remove = .idle → next s a = some (s', some true) → s'.present = true := by
  have hinv : Inv s := Run.invariant (fun _ _ h ⟨⟨_, _, hnext⟩, hapart⟩ => h.step hnext hapart) hrun (inv_start present)
  refine ⟨fun hc hr => hinv.accurate (by rw [hc]; nofun) (by rw [hr]; nofun), fun a s' hremove hnext => ?_⟩
  exact hinv.present_of_nil hremove hnext

/-- A bucket is created, removed and created again. -/
theorem trustworthy_recreated : Accurate ⟨false, some false, .idle, .idle⟩ ∧ Accurate ⟨true, some true, .idle, .idle⟩ ∧
    ∃ s', next ⟨true, some false, .called true, .idle⟩ .createLeave = some (s', some true) ∧ s'.present = true := by
  have hcreate : ∀ status, status = none ∨ status = some false →
      Relation.ReflTransGen Next ⟨false, status, .idle, .idle⟩ ⟨true, status, .called true, .idle⟩ := by
    rintro _ (rfl | rfl) <;>
      exact .head ⟨⟨.createEnter none, none, rfl⟩, .inr rfl⟩ (.single ⟨⟨.createCall true, none, rfl⟩, .inr rfl⟩)
  have hleave : ∀ status, Next ⟨true, status, .called true, .idle⟩ ⟨true, some true, .idle, .idle⟩ :=
    fun _ => ⟨⟨.createLeave, some true, rfl⟩, .inl rfl⟩
  have hremoved : Relation.ReflTransGen Next (start false) ⟨false, some false, .idle, .idle⟩ :=
    ((hcreate none (.inl rfl)).tail (hleave none)).tail ⟨⟨.removeEnter, none, rfl⟩, .inl rfl⟩
      |>.tail ⟨⟨.removeCall true, none, rfl⟩, .inl rfl⟩ |>.tail ⟨⟨.removeLeave, none, rfl⟩, .inl rfl⟩
  have hagain := hremoved.trans (hcreate (some false) (.inr rfl))
  exact ⟨(trustworthy hremoved).1 rfl rfl, (trustworthy (hagain.tail (hleave _))).1 rfl rfl, _, rfl,
    (trustworthy hagain).2 .createLeave _ rfl rfl⟩

/-- The bucket is removed between its creation and the record of that. The status is wrong then, and the next `Create`
returns `nil` although there is no bucket. -/
theorem status_lies :
    [Action.createEnter none, .createCall true, .removeEnter, .removeCall true, .removeLeave, .createLeave].foldlM
      (fun s a => (next s a).map Prod.fst) (start false) = some ⟨false, some true, .idle, .idle⟩ ∧
    next ⟨false, some true, .idle, .idle⟩ (.createEnter (some true)) =
      some (⟨false, some true, .idle, .idle⟩, some true) :=
  ⟨rfl, rfl⟩

end ZClone.Bucket
