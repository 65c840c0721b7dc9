import ZClone.Lib.Decimal
import ZClone.Lib.Path
import Mathlib.Data.List.Forall2
import Mathlib.Data.List.Infix

/-!
# Versions in file names (`lib/version/version.go`)

- `add`, `remove` and `matched` are the functions of the package. Times are read and printed by a `Clock`.
- `splitExt_add` and `remove_add`: a version that was added is found and removed, whatever the name.
- `add_remove_iff`: a version that was removed can be added again, unless it stood before an extension only or is
  printed in another way. `remove_add_and_back` has both directions for the names where no version is removed too.
-/

namespace ZClone.Version

open Paths List
open Decimal (isDigit)

def isDash (b : UInt8) : Bool := b = dash

/-- `-v2006-01-02-150405`, with digits for the numbers. -/
def datePattern : List (UInt8 → Bool) :=
  [isDash, (· == 0x76)] ++ List.replicate 4 isDigit ++ [isDash] ++ List.replicate 2 isDigit ++ [isDash] ++
    List.replicate 2 isDigit ++ [isDash] ++ List.replicate 6 isDigit

/-- The milliseconds. -/
def fractionPattern : List (UInt8 → Bool) := List.replicate 3 isDigit

/-- The bytes are of the classes, one by one. -/
def Fits (pattern : List (UInt8 → Bool)) (s : Text) : Prop := List.Forall₂ (fun p b => p b = true) pattern s

/-- `time.Parse` and `Format` with `versionFormat`. -/
structure Clock (τ : Type) where
  /-- `time.Time{}`. -/
  zero : τ
  parse : Text → Option τ
  format : τ → Text
  parse_dash : ∀ {s t}, parse s = some t → s.head? = some dash
  parse_format : ∀ {s t}, parse s = some t → parse (format t) = some t
  format_fits : ∀ {s t}, parse s = some t →
    ∃ date fraction, format t = date ++ dot :: fraction ∧ Fits datePattern date ∧ Fits fractionPattern fraction

/-- The length of `versionFormat`. -/
def versionLength : Nat := 23

def splitExt (fileName : Text) : Text × Text :=
  let e := ext fileName
  let base := fileName.take (fileName.length - e.length)
  -- .file splits to base == "", ext == ".file" so swap ext and base in this case
  if e ≠ [] ∧ base = [] then (e, base) else (base, e)

/-- The bytes begin with bytes of the classes. -/
def fitsHere : List (UInt8 → Bool) → Text → Bool
  | [], _ => true
  | _ :: _, [] => false
  | p :: pattern, b :: s => p b && fitsHere pattern s

/-- `Match`: `versionRegexp` is found somewhere. -/
def matched (fileName : Text) : Bool := fileName.tails.any (fitsHere (datePattern ++ isDash :: fractionPattern))

section

variable {τ : Type} (clock : Clock τ)

/-- The version string of a time. -/
def stamp (t : τ) : Text := (clock.format t).map fun b => if b = dot then dash else b

def add (fileName : Text) (t : τ) : Text := (splitExt fileName).1 ++ stamp clock t ++ (splitExt fileName).2

def remove (fileName : Text) : τ × Text :=
  let (base, e) := splitExt fileName
  if base.length < versionLength then (clock.zero, fileName)
  -- Check it ends in -xxx
  else if base[base.length - 4]? ≠ some dash then (clock.zero, fileName)
  else
    let versionStart := base.length - versionLength
    -- Replace with .xxx for parsing
    let base := base.take (base.length - 4) ++ dot :: base.drop (base.length - 3)
    match clock.parse (base.drop versionStart) with
    | none => (clock.zero, fileName)
    | some t => (t, base.take versionStart ++ e)

end

/-! ## Names and extensions -/

section

variable {x v b : Text}

theorem splitExt_append {e : Text} (hslash : Paths.slash ∉ b ++ dot :: e) (hdot : dot ∉ e) :
    splitExt (b ++ dot :: e) = if b = [] then (dot :: e, []) else (b, dot :: e) := by
  have htake : (b ++ dot :: e).take ((b ++ dot :: e).length - (dot :: e).length) = b := by
    rw [length_append, Nat.add_sub_cancel, take_left]
  rw [splitExt, ext_append hslash hdot, htake]
  by_cases hb : b = []
  · rw [if_pos ⟨cons_ne_nil _ _, hb⟩, if_pos hb, hb]
  · rw [if_neg fun h => hb h.2, if_neg hb]

theorem append_splitExt (x : Text) : (splitExt x).1 ++ (splitExt x).2 = x := by
  have hparts := suffix_iff_eq_append.mp (ext_suffix x)
  rw [splitExt]
  split_ifs with h
  · rw [h.2, nil_append] at hparts
    rw [h.2, append_nil, hparts]
  · exact hparts

section

variable (hslash : Paths.slash ∉ x)

include hslash

theorem splitExt_of_notMem (hdot : dot ∉ x) : splitExt x = (x, []) := by
  rw [splitExt, ext_of_notMem hslash hdot]
  simp

/-- An extension is a dot and what is behind it. -/
theorem splitExt_cases :
    ((splitExt x).2 = [] ∧ (splitExt x).1 = x) ∨ ∃ b e, b ≠ [] ∧ dot ∉ e ∧ x = b ++ dot :: e ∧
      splitExt x = (b, dot :: e) := by
  obtain hdot | ⟨b, e, rfl, hdot⟩ := last_cases dot x
  · rw [splitExt_of_notMem hslash hdot]
    exact .inl ⟨rfl, rfl⟩
  · rw [splitExt_append hslash hdot]
    split_ifs with hb
    · rw [hb]
      exact .inl ⟨rfl, rfl⟩
    · exact .inr ⟨b, e, hb, hdot, rfl, rfl⟩

/-- Names with text added behind the base, or taken away there, have the same extension. -/
theorem splitExt_insert (hv : Paths.slash ∉ v) (hdot : dot ∉ v) :
    splitExt ((splitExt x).1 ++ v ++ (splitExt x).2) = ((splitExt x).1 ++ v, (splitExt x).2) := by
  have hnone : ∀ {b : Text}, Paths.slash ∉ b → Paths.slash ∉ b ++ v := fun hb h => (mem_append.mp h).elim hb hv
  obtain hdot' | ⟨b, e, rfl, hdot'⟩ := last_cases dot x
  · rw [splitExt_of_notMem hslash hdot', append_nil]
    exact splitExt_of_notMem (hnone hslash) fun h => (mem_append.mp h).elim hdot' hdot
  · rw [splitExt_append hslash hdot']
    split_ifs with hb
    · -- the name begins with its only dot
      subst hb
      have hdot'' : dot ∉ e ++ v := fun h => (mem_append.mp h).elim hdot' hdot
      have hsplit := @splitExt_append [] (e ++ v) (hnone hslash) hdot''
      rw [if_pos rfl] at hsplit
      rw [append_nil]
      exact hsplit
    · have hslash' : Paths.slash ∉ b ++ v ++ dot :: e := by
        intro h
        simp only [mem_append] at h hslash
        exact h.elim (fun h => h.elim (fun h => hslash (.inl h)) hv) fun h => hslash (.inr h)
      rw [splitExt_append hslash' hdot', if_neg fun h => hb (append_eq_nil_iff.mp h).1]

/-- The same when something is taken away there, as long as something is left. -/
theorem splitExt_remove (hb : b ≠ []) (h : (splitExt x).1 = b ++ v) :
    splitExt (b ++ (splitExt x).2) = (b, (splitExt x).2) := by
  have hslash' : Paths.slash ∉ b ++ (splitExt x).2 := by
    rw [← append_splitExt x, h] at hslash
    simp only [mem_append] at hslash ⊢
    exact fun h => hslash (h.imp_left .inl)
  obtain hdot | ⟨b', e, rfl, hdot⟩ := last_cases dot x
  · rw [splitExt_of_notMem hslash hdot] at h hslash' ⊢
    subst h
    rw [append_nil] at hslash' ⊢
    exact splitExt_of_notMem hslash' fun hmem => hdot (mem_append_left _ hmem)
  · rw [splitExt_append hslash hdot] at h hslash' ⊢
    by_cases hb' : b' = []
    · rw [if_pos hb'] at h hslash' ⊢
      obtain ⟨d, b, rfl⟩ := exists_cons_of_ne_nil hb
      obtain ⟨rfl, rfl⟩ := cons_eq_cons.mp h
      rw [append_nil] at hslash' ⊢
      have hsplit := @splitExt_append [] b hslash' fun hmem => hdot (mem_append_left _ hmem)
      rwa [if_pos rfl] at hsplit
    · rw [if_neg hb'] at h hslash' ⊢
      rw [splitExt_append hslash' hdot, if_neg hb]

end

end

variable {ps : List (UInt8 → Bool)}

/-! ## Versions -/

section

variable {τ : Type} {clock : Clock τ} {t : τ} {x s fraction date b e : Text}

theorem fitsHere_append (h : Fits ps s) (rest : Text) : fitsHere ps (s ++ rest) = true := by
  induction h with
  | nil => rfl
  | cons hp _ ih => rw [cons_append, fitsHere, hp, ih, Bool.and_self]

theorem Fits.notMem (h : Fits ps s) {b : UInt8} (hb : ps.all (fun p => !p b) = true) : b ∉ s := by
  induction h with
  | nil => exact not_mem_nil
  | cons hp _ ih =>
    rw [all_cons, Bool.and_eq_true] at hb
    rw [mem_cons, not_or]
    refine ⟨?_, ih hb.2⟩
    rintro rfl
    rw [hp] at hb
    exact absurd hb.1 Bool.false_ne_true

theorem map_of_notMem (h : dot ∉ s) : s.map (fun b => if b = dot then dash else b) = s := by
  induction s with
  | nil => rfl
  | cons b s ih =>
    rw [mem_cons, not_or] at h
    rw [map_cons, ih h.2, if_neg (Ne.symm h.1)]

/-- A version string in two parts, as it is read. -/
structure IsVersion (clock : Clock τ) (t : τ) (date fraction : Text) : Prop where
  length_date : date.length = 19
  length_fraction : fraction.length = 3
  parse : clock.parse (date ++ dot :: fraction) = some t

/-- Names without a dash have no version. -/
theorem matched_of_notMem (h : dash ∉ x) : matched x = false := by
  rw [matched, any_eq_false]
  intro tail htail
  rw [mem_tails] at htail
  cases tail with
  | nil => exact Bool.false_ne_true
  | cons b tail =>
    have hb : isDash b = false := decide_eq_false fun hb => h (htail.subset (hb ▸ mem_cons_self))
    simp [datePattern, fitsHere, hb]

/-- A base that is long enough and has its last dash in place. -/
theorem remove_eq (hdate : date.length = 19) (hfraction : fraction.length = 3)
    (hsplit : splitExt x = (b ++ (date ++ dash :: fraction), e)) : remove clock x =
      match clock.parse (date ++ dot :: fraction) with
      | none => (clock.zero, x)
      | some t => (t, b ++ e) := by
  have hlen : (b ++ (date ++ dash :: fraction)).length = b.length + versionLength := by
    simp only [length_append, length_cons, hdate, hfraction, versionLength]
  have hcut : b ++ (date ++ dash :: fraction) = (b ++ date) ++ dash :: fraction := (append_assoc _ _ _).symm
  have hstart : b.length + versionLength - 4 = (b ++ date).length := by
    rw [length_append, hdate]
    rfl
  have hdot : (b ++ date ++ dash :: fraction).take (b ++ date).length ++
      dot :: (b ++ date ++ dash :: fraction).drop (b.length + versionLength - 3) = b ++ (date ++ dot :: fraction) := by
    have hnext : b.length + versionLength - 3 = (b ++ date ++ [dash]).length := by
      rw [length_append, ← hstart]
      simp only [versionLength, length_singleton]
      omega
    have hsplit' : b ++ date ++ dash :: fraction = (b ++ date ++ [dash]) ++ fraction := by simp
    rw [take_left, hnext, hsplit', drop_left, append_assoc]
  rw [remove, hsplit]
  dsimp only
  rw [hlen, if_neg (by omega), hstart, hcut, getElem?_append_right (Nat.le_refl _), Nat.sub_self, getElem?_cons_zero,
    if_neg (not_not.mpr rfl), hdot, Nat.add_sub_cancel, drop_left, take_left]

/-- The parts of a base that is long enough. -/
theorem exists_parts {base : Text} (hlen : versionLength ≤ base.length) (hdash : base[base.length - 4]? = some dash) :
    ∃ b date fraction, base = b ++ (date ++ dash :: fraction) ∧ date.length = 19 ∧ fraction.length = 3 := by
  have hsize : versionLength = 23 := rfl
  obtain ⟨hlt, hget⟩ := List.getElem?_eq_some_iff.mp hdash
  refine ⟨base.take (base.length - 23), (base.drop (base.length - 23)).take 19, base.drop (base.length - 3), ?_, ?_, ?_⟩
  · have hlast : base.drop (base.length - 4) = dash :: base.drop (base.length - 3) := by
      rw [drop_eq_getElem_cons hlt, hget]
      congr 2
      omega
    have hrest : (base.drop (base.length - 23)).drop 19 = base.drop (base.length - 4) := by
      rw [drop_drop]
      congr 1
      omega
    rw [← hlast, ← hrest, take_append_drop, take_append_drop]
  · rw [length_take, length_drop]
    omega
  · rw [length_drop]
    omega

/-- A version is removed or the name is as it was. -/
theorem remove_cases (clock : Clock τ) (x : Text) :
    remove clock x = (clock.zero, x) ∨ ∃ t b date fraction, IsVersion clock t date fraction ∧
    splitExt x = (b ++ (date ++ dash :: fraction), (splitExt x).2) ∧ remove clock x = (t, b ++ (splitExt x).2) := by
  by_cases hlen : (splitExt x).1.length < versionLength
  · rw [remove]
    dsimp only
    exact .inl (by rw [if_pos hlen])
  by_cases hdash : (splitExt x).1[(splitExt x).1.length - 4]? = some dash
  · obtain ⟨b, date, fraction, hbase, hdate, hfraction⟩ := exists_parts (Nat.not_lt.mp hlen) hdash
    have hsplit : splitExt x = (b ++ (date ++ dash :: fraction), (splitExt x).2) := by rw [← hbase]
    rw [remove_eq hdate hfraction hsplit]
    cases hparse : clock.parse (date ++ dot :: fraction) with
    | none => exact .inl rfl
    | some t => exact .inr ⟨t, b, date, fraction, ⟨hdate, hfraction, hparse⟩, hsplit, rfl⟩
  · rw [remove]
    dsimp only
    exact .inl (by rw [if_neg hlen, if_pos hdash])

section

variable (h : clock.parse s = some t)

include h

/-- The version string of a time that was read. -/
theorem exists_stamp : ∃ date fraction, stamp clock t = date ++ dash :: fraction ∧ IsVersion clock t date fraction ∧
      Fits (datePattern ++ isDash :: fractionPattern) (date ++ dash :: fraction) := by
  obtain ⟨date, fraction, hformat, hdate, hfraction⟩ := clock.format_fits h
  refine ⟨date, fraction, ?_, ⟨hdate.length_eq.symm, hfraction.length_eq.symm, ?_⟩,
    rel_append hdate (.cons rfl hfraction)⟩
  · rw [stamp, hformat, map_append, map_cons, if_pos rfl, map_of_notMem (hdate.notMem (by decide)),
      map_of_notMem (hfraction.notMem (by decide))]
  · rw [← hformat]
    exact clock.parse_format h

theorem notMem_stamp : Paths.slash ∉ stamp clock t ∧ dot ∉ stamp clock t := by
  obtain ⟨date, fraction, hstamp, -, hfits⟩ := exists_stamp h
  rw [hstamp]
  exact ⟨hfits.notMem (by decide), hfits.notMem (by decide)⟩

/-- A name with a version is found to have one. -/
theorem matched_add (x : Text) : matched (add clock x t) = true := by
  obtain ⟨date, fraction, hstamp, -, hfits⟩ := exists_stamp h
  refine any_eq_true.mpr ⟨stamp clock t ++ (splitExt x).2, ?_, ?_⟩
  · rw [mem_tails, add, append_assoc]
    exact suffix_append _ _
  · rw [hstamp]
    exact fitsHere_append hfits _

theorem splitExt_add (hslash : Paths.slash ∉ x) :
    splitExt (add clock x t) = ((splitExt x).1 ++ stamp clock t, (splitExt x).2) :=
  splitExt_insert hslash (notMem_stamp h).1 (notMem_stamp h).2

theorem slash_notMem_add (hslash : Paths.slash ∉ x) : Paths.slash ∉ add clock x t := by
  intro hmem
  rw [← append_splitExt x] at hslash
  simp only [add, mem_append] at hmem hslash
  exact hmem.elim (fun h' => h'.elim (fun h' => hslash (.inl h')) (notMem_stamp h).1) fun h' => hslash (.inr h')

theorem remove_add (hslash : Paths.slash ∉ x) : remove clock (add clock x t) = (t, x) := by
  obtain ⟨date, fraction, hstamp, hversion, -⟩ := exists_stamp h
  have hsplit := splitExt_add h hslash
  rw [hstamp] at hsplit
  rw [remove_eq hversion.length_date hversion.length_fraction hsplit, hversion.parse, append_splitExt x]

end

/-- A version that was removed can be added again, unless it stood before an extension only or is printed in another
way. -/
theorem add_remove_iff (hslash : Paths.slash ∉ x) (h : IsVersion clock t date fraction)
    (hsplit : splitExt x = (b ++ (date ++ dash :: fraction), (splitExt x).2)) :
    add clock (b ++ (splitExt x).2) t = x ↔ ¬(b = [] ∧ (splitExt x).2 ≠ []) ∧
      stamp clock t = date ++ dash :: fraction := by
  have hx : x = b ++ (date ++ dash :: fraction) ++ (splitExt x).2 := by
    have hparts := append_splitExt x
    rw [hsplit] at hparts
    exact hparts.symm
  by_cases hb : b = []
  · subst hb
    obtain ⟨hnil, -⟩ | ⟨b', e, -, hdot, -, hsplit'⟩ := splitExt_cases hslash
    · -- the whole name is a version
      have hempty : splitExt [] = ([], []) := rfl
      rw [hnil, append_nil] at hx ⊢
      rw [add, hempty, append_nil, hx]
      simp
    · have hext : (splitExt x).2 = dot :: e := by rw [hsplit']
      have hslash' : Paths.slash ∉ [] ++ dot :: e := fun hmem => hslash (by
        rw [hx, hext]
        exact mem_append_right _ hmem)
      -- the version is added behind the extension, which is the base now
      have hself : splitExt (dot :: e) = (dot :: e, []) := by
        have hsplit'' := splitExt_append hslash' hdot
        rwa [if_pos rfl] at hsplit''
      have hdash : x.head? = some dash := by
        have hhead := clock.parse_dash h.parse
        have hne : date ≠ [] := ne_nil_of_length_pos (by rw [h.length_date]; decide)
        rw [head?_append_of_ne_nil _ hne] at hhead
        rw [hx, nil_append, append_assoc, head?_append_of_ne_nil _ hne, hhead]
      refine iff_of_false (fun hadd => ?_) fun hnot => hnot.1 ⟨rfl, by rw [hext]; exact cons_ne_nil _ _⟩
      rw [nil_append, hext, add, hself] at hadd
      rw [← hadd] at hdash
      have hne : dot ≠ dash := by decide
      exact hne (Option.some.inj hdash)
  · have hbase : (splitExt x).1 = b ++ (date ++ dash :: fraction) := by rw [hsplit]
    have hadd : add clock (b ++ (splitExt x).2) t = x ↔
        b ++ stamp clock t ++ (splitExt x).2 = b ++ (date ++ dash :: fraction) ++ (splitExt x).2 := by
      rw [add, splitExt_remove hslash hb hbase, ← hx]
    rw [hadd, append_left_inj, append_right_inj]
    exact (and_iff_right fun hnil => hb hnil.1).symm

/-- Where nothing is removed, the time is the zero time, and to add that changes the name. -/
theorem add_eq_self_iff : add clock x t = x ↔ stamp clock t = [] := by
  have hparts := congrArg length (append_splitExt x)
  constructor
  · intro h
    have hlen := congrArg length h
    simp only [add, length_append] at hlen hparts
    exact eq_nil_of_length_eq_zero (by omega)
  · intro h
    rw [add, h, append_nil, append_splitExt]

/-- For every file name, `Remove` undoes `Add`, and `Match` finds what it added. The other way round, what `Remove`
takes off a name is put back by `Add` unless it is all that stands before the extension or is printed in another way;
and where `Remove` takes nothing off, `Add` adds the zero time. -/
theorem remove_add_and_back {s v : Text} (h : clock.parse s = some t) (hx : Paths.slash ∉ x) (hv : Paths.slash ∉ v) :
    (remove clock (add clock x t) = (t, x) ∧ matched (add clock x t) = true) ∧
    ((remove clock v = (clock.zero, v) ∧ (add clock v clock.zero = v ↔ stamp clock clock.zero = [])) ∨
      ∃ t' b date fraction, IsVersion clock t' date fraction ∧
        splitExt v = (b ++ (date ++ dash :: fraction), (splitExt v).2) ∧ remove clock v = (t', b ++ (splitExt v).2) ∧
        (add clock (b ++ (splitExt v).2) t' = v ↔
          ¬(b = [] ∧ (splitExt v).2 ≠ []) ∧ stamp clock t' = date ++ dash :: fraction)) := by
  refine ⟨⟨remove_add h hx, matched_add h x⟩, ?_⟩
  apply (remove_cases clock v).imp
  · intro hzero
    exact ⟨hzero, add_eq_self_iff⟩
  · rintro ⟨t', b, date, fraction, hversion, hsplit, hremove⟩
    exact ⟨t', b, date, fraction, hversion, hsplit, hremove, add_remove_iff hv hversion hsplit⟩

end

/-! ## The calendar -/

/-- The number of some digits. -/
def number (digits : Text) : Nat := digits.foldl (fun n b => 10 * n + (b.toNat - 0x30)) 0

def daysIn (month year : Nat) : Nat :=
  if month = 2 then if year % 4 = 0 ∧ (year % 100 ≠ 0 ∨ year % 400 = 0) then 29 else 28
  else if month = 4 ∨ month = 6 ∨ month = 9 ∨ month = 11 then 30
  else 31

/-- The date and the time of day are ones that there are. -/
def inRange (s : Text) : Bool :=
  let year := number ((s.drop 2).take 4)
  let month := number ((s.drop 7).take 2)
  let day := number ((s.drop 10).take 2)
  1 ≤ month && month ≤ 12 && 1 ≤ day && day ≤ daysIn month year && number ((s.drop 13).take 2) < 24 &&
    number ((s.drop 15).take 2) < 60 && number ((s.drop 17).take 2) < 60

/-- `Fits`, evaluated. -/
def fitsAll (pattern : List (UInt8 → Bool)) (s : Text) : Bool := s.length = pattern.length && fitsHere pattern s

theorem fits_of_fitsAll : ∀ {s : Text}, fitsAll ps s = true → Fits ps s := by
  induction ps with
  | nil =>
    intro s h
    rw [fitsAll, Bool.and_eq_true, decide_eq_true_eq] at h
    rw [length_eq_zero_iff.mp h.1]
    exact .nil
  | cons p ps ih =>
    intro s h
    rw [fitsAll, Bool.and_eq_true, decide_eq_true_eq] at h
    cases s with
    | nil => exact absurd h.2 Bool.false_ne_true
    | cons b s =>
      rw [fitsHere, Bool.and_eq_true] at h
      have hrest : fitsAll ps s = true := by
        rw [fitsAll, Bool.and_eq_true, decide_eq_true_eq]
        exact ⟨Nat.succ.inj h.1, h.2.2⟩
      exact .cons h.2.1 (ih hrest)

/-- A time by its text. -/
def readTime (s : Text) : Option Text :=
  if fitsAll datePattern (s.take 19) ∧ s[19]? = some dot ∧ fitsAll fractionPattern (s.drop 20) ∧
    inRange s then some s else none

theorem readTime_eq_some {s t : Text} (h : readTime s = some t) :
    t = s ∧ ∃ date fraction, s = date ++ dot :: fraction ∧ Fits datePattern date ∧ Fits fractionPattern fraction := by
  rw [readTime] at h
  split_ifs at h with hs
  obtain ⟨hdate, hdot, hfraction, -⟩ := hs
  obtain ⟨hlt, hget⟩ := List.getElem?_eq_some_iff.mp hdot
  refine ⟨(Option.some.inj h).symm, s.take 19, s.drop 20, ?_, fits_of_fitsAll hdate, fits_of_fitsAll hfraction⟩
  rw [← hget, ← drop_eq_getElem_cons hlt, take_append_drop]

/-- A clock whose times are the texts they are printed as. -/
def calendar : Clock Text where
  zero := []
  parse := readTime
  format t := t
  parse_dash h := by
    obtain ⟨-, date, fraction, rfl, hdate, -⟩ := readTime_eq_some h
    cases hdate with
    | cons hdash _ => exact congrArg some (of_decide_eq_true hdash)
  parse_format h := by
    obtain ⟨rfl, -⟩ := readTime_eq_some h
    exact h
  format_fits h := by
    obtain ⟨rfl, hparts⟩ := readTime_eq_some h
    exact hparts

/-- `-v2001-02-03-040506.123`. -/
def february : Text := ascii
  ['-', 'v', '2', '0', '0', '1', '-', '0', '2', '-', '0', '3', '-', '0', '4', '0', '5', '0', '6', '.', '1', '2', '3']

theorem remove_add_february : remove calendar (add calendar (ascii "a.b.c".toList) february) =
    (february, ascii "a.b.c".toList) :=
  (@remove_add_and_back _ calendar _ _ february [] (by decide +kernel) (by decide) (by decide)).1.1

/-- A version before an extension is added behind it. -/
theorem add_remove_moves_version : matched (stamp calendar february ++ ascii ['.', 't', 'x', 't']) = true ∧
    remove calendar (stamp calendar february ++ ascii ['.', 't', 'x', 't']) = (february, ascii ['.', 't', 'x', 't']) ∧
    add calendar (ascii ['.', 't', 'x', 't']) february = ascii ['.', 't', 'x', 't'] ++ stamp calendar february := by
  decide +kernel

end ZClone.Version
