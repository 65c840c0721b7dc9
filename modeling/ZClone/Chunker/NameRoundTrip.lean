import ZClone.Chunker.Names

/-!
# Chunk names are read back

The search for the main name takes the shortest one that the rest of the pattern can follow. `NoEarlierCut` says that no
start of the name of a file is one, and `parseChunkName` undoes `makeChunkName` exactly then. It is so for all names if
the text before the number does not come again further on, whatever number, control type and suffix follow it
(`Unambiguous`), as in the default format.
-/

namespace ZClone.Chunker

open List
open Paths (Text ascii slash dot)
open Decimal (atoi itoa isDigit)

/-! ## The end of a name -/

/-- A number, or a control type. -/
def IsNumber (f : NameFormat) (t : Text) : Prop :=
  (f.digits ≤ t.length ∧ t.all isDigit = true) ∨
    ∃ ctrl, t = underscore :: ctrl ∧ ctrl.head?.any isLower = true ∧ 3 ≤ ctrl.length ∧ ctrl.length ≤ 7 ∧
      ctrl.all (fun b => isDigit b || isLower b) = true

/-- What may stand at the end. -/
def IsSuffix (t : Text) : Prop :=
  t = [] ∨ (∃ temp, t = underscore :: temp ∧ 4 ≤ temp.length ∧ temp.length ≤ 9 ∧
    temp.all (fun b => isDigit b || isLower b) = true) ∨
    ∃ old, t = ascii "..tmp_".toList ++ old ∧ 10 ≤ old.length ∧ old.length ≤ 13 ∧ old.all isDigit = true

/-- What may follow the text before the number. -/
def IsRest (f : NameFormat) (t : Text) : Prop :=
  ∃ number suffix, t = number ++ f.tail ++ suffix ∧ IsNumber f number ∧ IsSuffix suffix

/-- With `text` behind it, no shorter start of `leaf` is followed by the rest of the pattern. -/
def NoEarlierCut (f : NameFormat) (leaf text : Text) : Prop :=
  ∀ i, 0 < i → i < leaf.length → ∀ rest, leaf.drop i ++ text = f.mid ++ rest → ¬IsRest f rest

/-- The text before the number is not found again further on. -/
def Unambiguous (f : NameFormat) : Prop := ∀ rest, IsRest f rest → ∀ k, 0 < k → ¬f.mid <+: (f.mid ++ rest).drop k

theorem after_append (start t : Text) : after start (start ++ t) = some t := by
  rw [after, if_pos (List.isPrefixOf_iff_prefix.mpr (prefix_append start t)), drop_left]

variable {t rest : Text}

theorem after_eq_some_iff {start : Text} : after start t = some rest ↔ t = start ++ rest := by
  refine ⟨fun h => ?_, fun h => h ▸ after_append start rest⟩
  rw [after] at h
  split_ifs at h with hprefix
  obtain ⟨r, rfl⟩ := isPrefixOf_iff_prefix.mp hprefix
  rw [drop_left] at h
  rw [Option.some.inj h]

theorem matchEnd_isSome_iff : (matchEnd t).isSome = true ↔ IsSuffix t := by
  constructor
  · intro h
    rw [matchEnd] at h
    split_ifs at h with hnil
    · exact .inl hnil
    · cases htemp : after [underscore] t with
      | some temp =>
        rw [htemp] at h
        simp only at h
        split_ifs at h with hok
        · exact .inr (.inl ⟨temp, after_eq_some_iff.mp htemp, hok⟩)
        · cases h
      | none =>
        cases hold : after (ascii "..tmp_".toList) t with rw [htemp, hold] at h
        | some old =>
          simp only at h
          split_ifs at h with hok
          · exact .inr (.inr ⟨old, after_eq_some_iff.mp hold, hok⟩)
          · cases h
        | none =>
          cases h
  · rintro (rfl | ⟨temp, rfl, hok⟩ | ⟨old, rfl, hok⟩)
    · rfl
    · have hafter : after [underscore] (underscore :: temp) = some temp := after_append [underscore] temp
      rw [matchEnd, if_neg (cons_ne_nil _ _), hafter]
      simp only [hok, and_self, if_true, Option.isSome_some]
    · have hnone : after [underscore] (ascii "..tmp_".toList ++ old) = none := rfl
      rw [matchEnd, if_neg (by rw [append_eq_nil_iff]; exact fun h => absurd h.1 (by decide)), hnone, after_append]
      simp only [hok, and_self, if_true, Option.isSome_some]

variable {f : NameFormat} {p : UInt8 → Bool} {xactID main : Text} {g : Groups} {n m : Nat}

theorem matchTail_isSome_iff : (matchTail f t).isSome = true ↔ ∃ suffix, t = f.tail ++ suffix ∧ IsSuffix suffix := by
  rw [matchTail, Option.isSome_bind]
  simp only [Option.any_eq_true, after_eq_some_iff, matchEnd_isSome_iff]

/-- The bytes before a place that is not beyond a run all belong to it. -/
theorem all_take_of_le (h : n ≤ (t.takeWhile p).length) : (t.take n).all p = true := by
  have hrun : t.take n <+: t.takeWhile p :=
    prefix_of_prefix_length_le (List.take_prefix n t) (List.takeWhile_prefix p) ((length_take_le n t).trans h)
  exact all_eq_true.mpr fun b hb => mem_takeWhile_imp (hrun.subset hb)

/-- A cut within a run, with the tail and a suffix behind it. -/
theorem cut_iff : (n ≤ (t.takeWhile p).length ∧ (matchTail f (t.drop n)).isSome = true) ↔
    ∃ number suffix, t = number ++ f.tail ++ suffix ∧ number.length = n ∧ number.all p = true ∧ IsSuffix suffix := by
  rw [matchTail_isSome_iff]
  constructor
  · rintro ⟨hle, suffix, hdrop, hsuffix⟩
    refine ⟨t.take n, suffix, ?_, ?_, all_take_of_le hle, hsuffix⟩
    · rw [append_assoc, ← hdrop, take_append_drop]
    · exact length_take_of_le (hle.trans (List.takeWhile_prefix p).length_le)
  · rintro ⟨number, suffix, rfl, rfl, hall, hsuffix⟩
    refine ⟨?_, suffix, by rw [append_assoc, drop_left], hsuffix⟩
    rw [append_assoc, takeWhile_append_of_pos (all_eq_true.mp hall), length_append]
    exact Nat.le_add_right _ _

theorem matchNumber_isSome_iff : (matchNumber f main t).isSome = true ↔ IsRest f t := by
  have hnumber (g : Nat → Text × Text → Groups) :
      ((List.range' f.digits ((t.takeWhile isDigit).length + 1 - f.digits)).reverse.findSome? fun n =>
        (matchTail f (t.drop n)).map (g n)).isSome = true ↔
      ∃ number suffix, t = number ++ f.tail ++ suffix ∧ (f.digits ≤ number.length ∧ number.all isDigit = true) ∧
        IsSuffix suffix := by
    rw [findSome?_isSome_iff]
    simp only [mem_reverse, mem_range'_1, Option.isSome_map]
    constructor
    · rintro ⟨n, hn, hcut⟩
      obtain ⟨number, suffix, ht, rfl, hall, hsuffix⟩ := (cut_iff (p := isDigit)).mp ⟨by omega, hcut⟩
      exact ⟨number, suffix, ht, ⟨hn.1, hall⟩, hsuffix⟩
    · rintro ⟨number, suffix, ht, ⟨hlen, hall⟩, hsuffix⟩
      obtain ⟨hle, hcut⟩ := cut_iff.mpr ⟨number, suffix, ht, rfl, hall, hsuffix⟩
      exact ⟨number.length, by omega, hcut⟩
  have hcontrol (g : Text → Nat → Text × Text → Groups) :
    ((after [underscore] t).bind fun t => if t.head?.any isLower then
      (List.range' 3 (min (t.takeWhile fun b => isDigit b || isLower b).length 7 + 1 - 3)).reverse.findSome? fun n =>
        (matchTail f (t.drop n)).map (g t n) else none).isSome = true ↔
          ∃ ctrl suffix, t = underscore :: ctrl ++ f.tail ++ suffix ∧ (ctrl.head?.any isLower = true ∧
        3 ≤ ctrl.length ∧ ctrl.length ≤ 7 ∧ ctrl.all (fun b => isDigit b || isLower b) = true) ∧ IsSuffix suffix := by
    simp only [Option.isSome_bind, Option.any_eq_true, after_eq_some_iff]
    constructor
    · rintro ⟨t', rfl, h⟩
      split_ifs at h with hhead
      · rw [findSome?_isSome_iff] at h
        simp only [mem_reverse, mem_range'_1, Option.isSome_map] at h
        obtain ⟨n, hn, hcut⟩ := h
        obtain ⟨ctrl, suffix, rfl, rfl, hall, hsuffix⟩ :=
          (cut_iff (p := fun b => isDigit b || isLower b)).mp ⟨by omega, hcut⟩
        refine ⟨ctrl, suffix, rfl, ⟨?_, hn.1, by omega, hall⟩, hsuffix⟩
        cases ctrl with
        | nil => exact absurd hn.1 (by decide)
        | cons b ctrl => exact hhead
      · cases h
    · rintro ⟨ctrl, suffix, rfl, ⟨hhead, hmin, hmax, hall⟩, hsuffix⟩
      refine ⟨ctrl ++ f.tail ++ suffix, rfl, ?_⟩
      obtain ⟨hle, hcut⟩ := cut_iff.mpr ⟨ctrl, suffix, rfl, rfl, hall, hsuffix⟩
      rw [if_pos, findSome?_isSome_iff]
      · refine ⟨ctrl.length, ?_, by rw [Option.isSome_map]; exact hcut⟩
        rw [mem_reverse, mem_range'_1]
        omega
      · cases ctrl with
        | nil => exact absurd hmin (by decide)
        | cons b ctrl => exact hhead
  simp only [matchNumber, Option.orElse_eq_orElse, Option.orElse_eq_or, Option.isSome_or, Bool.or_eq_true, hnumber,
    hcontrol]
  constructor
  · rintro (⟨number, suffix, ht, hnumber, hsuffix⟩ | ⟨ctrl, suffix, ht, hctrl, hsuffix⟩)
    · exact ⟨number, suffix, ht, .inl hnumber, hsuffix⟩
    · exact ⟨underscore :: ctrl, suffix, ht, .inr ⟨ctrl, rfl, hctrl⟩, hsuffix⟩
  · rintro ⟨number, suffix, ht, hnumber | ⟨ctrl, rfl, hctrl⟩, hsuffix⟩
    · exact .inl ⟨number, suffix, ht, hnumber, hsuffix⟩
    · exact .inr ⟨ctrl, suffix, ht, hctrl, hsuffix⟩

theorem main_of_matchNumber (h : matchNumber f main t = some g) : g.main = main := by
  simp only [matchNumber, Option.orElse_eq_orElse, Option.orElse_eq_or] at h
  rcases Option.or_eq_some_iff.mp h with h | ⟨-, h⟩
  · obtain ⟨n, -, hmatch⟩ := exists_of_findSome?_eq_some h
    obtain ⟨-, -, rfl⟩ := Option.map_eq_some_iff.mp hmatch
    rfl
  · obtain ⟨t', -, hcontrol⟩ := Option.bind_eq_some_iff.mp h
    split_ifs at hcontrol
    obtain ⟨n, -, hmatch⟩ := exists_of_findSome?_eq_some hcontrol
    obtain ⟨-, -, rfl⟩ := Option.map_eq_some_iff.mp hmatch
    rfl

theorem range'_eq_append {a : Nat} (ham : a ≤ m) (hmn : m < a + n) :
    range' a n = range' a (m - a) ++ m :: range' (m + 1) (a + n - (m + 1)) := by
  have hcut := @List.range'_append_1 a (m - a) (a + n - m)
  rw [show a + (m - a) = m by omega, show m - a + (a + n - m) = n by omega,
    show a + n - m = a + n - (m + 1) + 1 by omega, range'_succ] at hcut
  exact hcut.symm

/-! ## The number -/

/-- A suffix that is not empty starts with a byte that is no digit. -/
theorem IsSuffix.head (h : IsSuffix t) : t = [] ∨ ∃ b rest, t = b :: rest ∧ isDigit b = false := by
  rcases h with rfl | ⟨temp, rfl, -⟩ | ⟨old, rfl, -⟩
  · exact .inl rfl
  · exact .inr ⟨_, _, rfl, by decide⟩
  · exact .inr ⟨_, _, rfl, by decide⟩

/-- The run of digits at the start does not get longer if digits are put in front of it. -/
theorem no_more_digits {tail suffix suffix' digits : Text} (hdigits : digits.all isDigit = true)
    (hsuffix : IsSuffix suffix)
    (hsuffix' : IsSuffix suffix') (h : tail ++ suffix = digits ++ tail ++ suffix') : digits = [] := by
  have hrun : ∀ {s : Text}, IsSuffix s → ((tail ++ s).takeWhile isDigit) = tail.takeWhile isDigit := by
    intro s hs
    rw [List.takeWhile_append]
    split_ifs with hall
    · have heq : tail.takeWhile isDigit = tail := (List.takeWhile_prefix _).eq_of_length hall
      rcases hs.head with rfl | ⟨b, rest, rfl, hb⟩
      · rw [takeWhile_nil, append_nil, heq]
      · rw [takeWhile_cons_of_neg (by simp [hb]), append_nil, heq]
    · rfl
  have hall : ∀ b ∈ digits, isDigit b = true := all_eq_true.mp hdigits
  have hboth := congrArg (fun t => (List.takeWhile isDigit t).length) h
  simp only [hrun hsuffix, append_assoc, takeWhile_append_of_pos hall, hrun hsuffix', length_append] at hboth
  exact length_eq_zero_iff.mp (by omega)

/-- The digits that are found are those of the number: no longer run of digits is followed by the tail and a suffix. -/
theorem matchNumber_eq {number suffix : Text} (hlen : f.digits ≤ number.length) (hnumber : number.all isDigit = true)
    (hsuffix : IsSuffix suffix) {temp old : Text} (hend : matchEnd suffix = some (temp, old)) :
    matchNumber f main (number ++ f.tail ++ suffix) = some ⟨main, number, [], temp, old⟩ := by
  have hall : ∀ b ∈ number, isDigit b = true := all_eq_true.mp hnumber
  have hrun : number.length ≤ ((number ++ f.tail ++ suffix).takeWhile isDigit).length := by
    rw [append_assoc, takeWhile_append_of_pos hall, length_append]
    omega
  simp only [matchNumber, Option.orElse_eq_orElse, Option.orElse_eq_or]
  generalize hr : ((number ++ f.tail ++ suffix).takeWhile isDigit).length = run at hrun
  refine Option.or_eq_some_iff.mpr (.inl (findSome?_eq_some_iff.mpr ?_))
  -- the numbers of digits that are tried before
  refine ⟨(range' (number.length + 1) (run - number.length)).reverse, number.length,
    (range' f.digits (number.length - f.digits)).reverse, ?_, ?_, fun n hn => ?_⟩
  · rw [range'_eq_append hlen (by omega),
      show f.digits + (run + 1 - f.digits) - (number.length + 1) = run - number.length by omega]
    simp
  · rw [append_assoc, drop_left, take_left, matchTail, after_append, Option.bind_some, hend]
    rfl
  · rw [Option.map_eq_none_iff]
    by_contra hsome
    obtain ⟨p, hp⟩ := Option.ne_none_iff_exists'.mp hsome
    obtain ⟨suffix', hsuffix', hend'⟩ := matchTail_isSome_iff.mp (Option.isSome_iff_exists.mpr ⟨p, hp⟩)
    rw [mem_reverse, mem_range'_1] at hn
    -- the digits beyond the number are followed by the tail again
    have htake := all_take_of_le (p := isDigit) (t := number ++ f.tail ++ suffix) (n := n) (by omega)
    rw [append_assoc, take_append, all_append, Bool.and_eq_true] at htake
    rw [append_assoc, drop_append, drop_of_length_le (by omega), nil_append] at hsuffix'
    have heq : f.tail ++ suffix = (f.tail ++ suffix).take (n - number.length) ++ f.tail ++ suffix' := by
      rw [append_assoc, ← hsuffix', take_append_drop]
    have hnil := no_more_digits htake.2 hsuffix hend' heq
    have hlength := congrArg length hnil
    have hbound : run ≤ (number ++ f.tail ++ suffix).length := by
      rw [← hr]
      exact (List.takeWhile_prefix _).length_le
    rw [append_assoc, length_append] at hbound
    rw [length_take, length_nil] at hlength
    omega

/-! ## The main name -/

/-- The main name is the shortest start without a line feed that the rest of the pattern follows. -/
theorem matchName_eq_some_iff {name : Text} : matchName f name = some g ↔
    ∃ i, 0 < i ∧ i ≤ name.length ∧ 0x0A ∉ name.take i ∧
      (∃ rest, name.drop i = f.mid ++ rest ∧ matchNumber f (name.take i) rest = some g) ∧
      ∀ j, 0 < j → j < i → ∀ rest, name.drop j = f.mid ++ rest → ¬IsRest f rest := by
  have hone : ∀ {i g}, (if 0x0A ∈ name.take i then none
      else (after f.mid (name.drop i)).bind (matchNumber f (name.take i))) = some g ↔ 0x0A ∉ name.take i ∧
        ∃ rest, name.drop i = f.mid ++ rest ∧ matchNumber f (name.take i) rest = some g := by
    intro i g
    split_ifs with hmem
    · simp [hmem]
    · simp [hmem, Option.bind_eq_some_iff, after_eq_some_iff]
  rw [matchName, findSome?_eq_some_iff]
  constructor
  · rintro ⟨before, i, behind, hcut, hmatch, hbefore⟩
    obtain ⟨hnewline, hrest⟩ := hone.mp hmatch
    have hi : i ∈ range' 1 name.length := hcut ▸ mem_append_right before mem_cons_self
    rw [mem_range'_1] at hi
    refine ⟨i, hi.1, by omega, hnewline, hrest, fun j hj hji rest hdrop hisRest => ?_⟩
    -- `j` is tried before `i`
    have hmem : j ∈ before := by
      have hj' : j ∈ before ++ i :: behind := hcut ▸ mem_range'_1.mpr ⟨hj, by omega⟩
      have hsorted : (before ++ i :: behind).Pairwise (· < ·) := hcut ▸ List.pairwise_lt_range'
      refine (mem_append.mp hj').resolve_right fun h => ?_
      rcases mem_cons.mp h with rfl | h
      · exact absurd hji (lt_irrefl _)
      · exact absurd (rel_of_pairwise_cons (pairwise_append.mp hsorted).2.1 h) (by omega)
    obtain ⟨g', hg'⟩ : ∃ g', matchNumber f (name.take j) rest = some g' :=
      Option.isSome_iff_exists.mp (matchNumber_isSome_iff.mpr hisRest)
    have hsome := hone.mpr ⟨fun h => hnewline ((take_prefix_take_left hji.le).subset h), rest, hdrop, hg'⟩
    rw [hbefore j hmem] at hsome
    cases hsome
  · rintro ⟨i, hpos, hle, hnewline, hrest, hfirst⟩
    refine ⟨range' 1 (i - 1), i, _, range'_eq_append hpos (by omega), hone.mpr ⟨hnewline, hrest⟩, fun j hj => ?_⟩
    rw [mem_range'_1] at hj
    by_contra hsome
    obtain ⟨g', hg'⟩ := Option.ne_none_iff_exists'.mp hsome
    obtain ⟨-, rest, hdrop, hmatch⟩ := hone.mp hg'
    exact hfirst j (by omega) (by omega) rest hdrop
      (matchNumber_isSome_iff.mp (Option.isSome_iff_exists.mpr ⟨g', hmatch⟩))

/-! ## Names are read back -/

theorem padded_ne_nil (n m : Nat) : padded n (itoa m) ≠ [] := fun h => Decimal.itoa_ne_nil m (append_eq_nil_iff.mp h).2

theorem all_padded (n m : Nat) : (padded n (itoa m)).all isDigit = true :=
  all_eq_true.mpr fun _ => isDigit_of_mem_padded

theorem atoi_padded : atoi (padded n (itoa m)) = if m < 2 ^ 63 then some (m : Int) else none := by
  have hhead : ∀ b, isDigit b = false → (padded n (itoa m)).head? ≠ some b := by
    intro b hb hhead
    rw [isDigit_of_mem_padded (mem_of_mem_head? hhead)] at hb
    cases hb
  simp only [atoi, hhead 0x2B (by decide), hhead 0x2D (by decide), or_self, if_false, padded_ne_nil, all_padded,
    not_true_eq_false, foldl_padded]
  exact if_congr (by omega) rfl rfl

/-- What a name that is taken apart gives. -/
theorem parseChunkName_eq_some {filePath : Text} {c : ChunkName} (h : parseChunkName f filePath = some c) :
    ∃ g, matchName f (filePath.rtakeWhile (· ≠ slash)) = some g ∧
      c.parentPath = filePath.rdropWhile (· ≠ slash) ++ g.main ∧
      (g.data ≠ [] → c.chunkNo = (atoi g.data).getD (-1) - f.startFrom ∧ 0 ≤ c.chunkNo) := by
  obtain ⟨g, hg, h⟩ := Option.bind_eq_some_iff.mp h
  refine ⟨g, hg, ?_⟩
  by_cases hdata : g.data = []
  · simp only [hdata, ne_eq, not_true_eq_false, false_and, if_false] at h
    obtain ⟨x, -, rfl⟩ := Option.map_eq_some_iff.mp h
    exact ⟨rfl, fun h => absurd hdata h⟩
  · simp only [hdata, ne_eq, not_false_eq_true, true_and, if_false] at h
    split_ifs at h with hneg
    all_goals
      obtain ⟨x, -, rfl⟩ := Option.map_eq_some_iff.mp h
      exact ⟨rfl, fun _ => ⟨rfl, Int.not_lt.mp hneg⟩⟩

theorem rtakeWhile_append_of_forall {s : Text} (h : ∀ b ∈ t, p b = true) :
    (s ++ t).rtakeWhile p = s.rtakeWhile p ++ t ∧ (s ++ t).rdropWhile p = s.rdropWhile p := by
  have hrev : ∀ b ∈ t.reverse, p b = true := fun b hb => h b (mem_reverse.mp hb)
  simp only [rtakeWhile, rdropWhile, reverse_append, takeWhile_append_of_pos hrev, dropWhile_append_of_pos hrev,
    reverse_reverse, true_and]

/-- The parts of a format come from its pattern. -/
theorem slash_notMem_of_setChunkNameFormat {pattern : Text} {startFrom : Nat}
    (h : setChunkNameFormat pattern startFrom = some f) :
    slash ∉ f.mid ∧ slash ∉ f.tail ∧ f.startFrom = startFrom := by
  simp only [setChunkNameFormat] at h
  split_ifs at h with h1 h2 h3 h4 hslash h6 h7
  obtain rfl := Option.some.inj h
  refine ⟨fun hmem => hslash ?_, fun hmem => hslash ?_, rfl⟩
  · exact mem_of_mem_tail ((List.takeWhile_prefix _).subset hmem)
  · exact (dropWhile_suffix _).subset ((dropWhile_suffix _).subset hmem)

/-- A transaction that is empty or matches the format. -/
def IsXactID (xactID : Text) : Prop :=
  xactID = [] ∨ 4 ≤ xactID.length ∧ xactID.length ≤ 9 ∧ xactID.all (fun b => isDigit b || isLower b) = true

/-- The end of the name of a chunk. -/
def tempSuffix (xactID : Text) : Text := if xactID = [] then [] else underscore :: padded 4 xactID

theorem matchEnd_tempSuffix (h : IsXactID xactID) :
    IsSuffix (tempSuffix xactID) ∧ matchEnd (tempSuffix xactID) = some (xactID, []) ∧ slash ∉ tempSuffix xactID := by
  rcases h with rfl | ⟨hmin, hmax, hall⟩
  · exact ⟨.inl rfl, rfl, not_mem_nil⟩
  · have hne : xactID ≠ [] := by
      rintro rfl
      exact absurd hmin (by decide)
    have hpad : padded 4 xactID = xactID := by rw [padded, show 4 - xactID.length = 0 by omega]; rfl
    have hafter : after [underscore] (underscore :: xactID) = some xactID := after_append [underscore] xactID
    rw [tempSuffix, if_neg hne, hpad]
    refine ⟨.inr (.inl ⟨xactID, rfl, hmin, hmax, hall⟩), ?_, fun hmem => ?_⟩
    · rw [matchEnd, if_neg (cons_ne_nil _ _), hafter]
      simp only [hmin, hmax, hall, and_self, if_true]
    · rcases mem_cons.mp hmem with hmem | hmem
      · exact absurd hmem (by decide)
      · exact absurd (all_eq_true.mp hall _ hmem) (by decide)

/-- What `makeChunkName` puts behind the name of the file. -/
def chunkEnd (f : NameFormat) (chunkNo : Nat) (xactID : Text) : Text :=
  f.mid ++ (padded f.digits (itoa (chunkNo + f.startFrom)) ++ f.tail ++ tempSuffix xactID)

/-- **Exactly when a chunk name is read back.** -/
theorem parseChunkName_makeChunkName {pattern : Text} {startFrom : Nat} {f : NameFormat}
    (hf : setChunkNameFormat pattern startFrom = some f) (filePath : Text) (chunkNo : Nat) {xactID : Text}
    (hxactID : IsXactID xactID) :
    parseChunkName f (makeChunkName f filePath chunkNo xactID) = some ⟨filePath, chunkNo, [], xactID⟩ ↔
      filePath.rtakeWhile (· ≠ slash) ≠ [] ∧ 0x0A ∉ filePath.rtakeWhile (· ≠ slash) ∧ chunkNo + startFrom < 2 ^ 63 ∧
        NoEarlierCut f (filePath.rtakeWhile (· ≠ slash)) (chunkEnd f chunkNo xactID) := by
  obtain ⟨hmid, htail, rfl⟩ := slash_notMem_of_setChunkNameFormat hf
  obtain ⟨hsuffix, hend, hslash⟩ := matchEnd_tempSuffix hxactID
  have hchunk : makeChunkName f filePath chunkNo xactID = filePath ++ chunkEnd f chunkNo xactID := by
    simp only [makeChunkName, chunkEnd, tempSuffix, append_assoc]
  have hnone : ∀ b ∈ chunkEnd f chunkNo xactID, decide (b ≠ slash) = true := by
    simp only [chunkEnd, forall_mem_append, decide_eq_true_eq]
    refine ⟨fun b hb he => hmid (he ▸ hb), ⟨fun b hb he => ?_, fun b hb he => htail (he ▸ hb)⟩,
      fun b hb he => hslash (he ▸ hb)⟩
    exact absurd (he ▸ isDigit_of_mem_padded hb) (by decide)
  obtain ⟨htake, hdrop⟩ := rtakeWhile_append_of_forall (s := filePath) hnone
  have hpath : filePath.rdropWhile (· ≠ slash) ++ filePath.rtakeWhile (· ≠ slash) = filePath :=
    rdropWhile_append_rtakeWhile
  have hnumber : ∀ main, matchNumber f main (padded f.digits (itoa (chunkNo + f.startFrom)) ++ f.tail ++
      tempSuffix xactID) = some ⟨main, padded f.digits (itoa (chunkNo + f.startFrom)), [], xactID, []⟩ := fun main =>
    matchNumber_eq (by rw [padded, length_append, length_replicate]; omega) (all_padded _ _) hsuffix hend
  rw [hchunk]
  constructor
  · intro h
    obtain ⟨g, hg, hparent, hdata⟩ := parseChunkName_eq_some h
    rw [htake] at hg
    rw [hdrop] at hparent
    generalize filePath.rtakeWhile (· ≠ slash) = leaf at hpath hg ⊢
    obtain ⟨i, hpos, hle, hnewline, ⟨rest, hrest, hmatch⟩, hfirst⟩ := matchName_eq_some_iff.mp hg
    -- the main name is the whole name of the file
    have hmain : (leaf ++ chunkEnd f chunkNo xactID).take i = leaf := by
      rw [← main_of_matchNumber hmatch]
      exact append_cancel_left (hparent.symm.trans hpath.symm)
    have hi : i = leaf.length := by rw [← hmain, length_take_of_le hle]
    subst hi
    rw [drop_left, chunkEnd, append_cancel_left_eq] at hrest
    subst hrest
    rw [hnumber] at hmatch
    cases hmatch
    refine ⟨length_pos_iff.mp hpos, hmain ▸ hnewline, ?_, fun j hj hjlt rest hr => hfirst j hj hjlt rest ?_⟩
    · by_contra hlarge
      obtain ⟨hno, hnonneg⟩ := hdata (padded_ne_nil _ _)
      rw [atoi_padded, if_neg hlarge, Option.getD_none] at hno
      omega
    · rw [drop_append_of_le_length hjlt.le, hr]
  · rw [parseChunkName, htake, hdrop]
    generalize filePath.rtakeWhile (· ≠ slash) = leaf at hpath ⊢
    rintro ⟨hleaf, hnewline, hsmall, hcut⟩
    have hmatch : matchName f (leaf ++ chunkEnd f chunkNo xactID) =
        some ⟨leaf, padded f.digits (itoa (chunkNo + f.startFrom)), [], xactID, []⟩ := by
      refine matchName_eq_some_iff.mpr ⟨leaf.length, length_pos_of_ne_nil hleaf, ?_, by rwa [take_left],
        ⟨_, drop_left, by rw [take_left]; exact hnumber leaf⟩, fun j hj hjlt rest hr => hcut j hj hjlt rest ?_⟩
      · rw [length_append]
        exact Nat.le_add_right _ _
      · rw [← hr, drop_append_of_le_length hjlt.le]
    rw [hmatch, Option.bind_some]
    simp only [padded_ne_nil, if_false, atoi_padded, if_pos hsmall, Option.getD_some, if_true]
    rw [if_neg (by push_cast; omega)]
    simp only [Option.map_some, hpath]
    push_cast
    simp

/-- In an unambiguous format no name can be cut earlier. -/
theorem Unambiguous.noEarlierCut (h : Unambiguous f) (leaf : Text) (chunkNo : Nat) (xactID : Text) :
    NoEarlierCut f leaf (chunkEnd f chunkNo xactID) := by
  intro i hi hlt rest hr hrest
  refine h rest hrest (leaf.length - i) (by omega) ?_
  have hlen : (leaf.drop i).length = leaf.length - i := length_drop
  rw [← hr, ← hlen, drop_left]
  exact prefix_append _ _

/-! ## The default format -/

/-- `*.zclone_chunk.###`, with numbers from 1. -/
def defaultFormat : NameFormat :=
  ⟨dot :: ascii "zclone_chunk".toList ++ [dot], 3, [], 1⟩

/-- A text that starts with a certain byte is not found among others. -/
theorem infix_of_infix_append {x : UInt8} {r : Text} : ∀ {l : Text}, x ∉ l → x :: t <:+: l ++ r → x :: t <:+: r
  | [], _, h => h
  | b :: l, hl, h => by
    rw [mem_cons, not_or] at hl
    rw [cons_append, infix_cons_iff, cons_prefix_cons] at h
    exact infix_of_infix_append hl.2 (h.resolve_left fun hp => hl.1 hp.1)

theorem unambiguous_defaultFormat : Unambiguous defaultFormat := by
  have hdot : ∀ {t : Text}, t.all (fun b => isDigit b || isLower b) = true → dot ∉ t := fun hall hmem =>
    absurd (all_eq_true.mp hall _ hmem) (by decide)
  have hdigits : ∀ {t : Text}, t.all isDigit = true → dot ∉ t := fun hall hmem =>
    absurd (all_eq_true.mp hall _ hmem) (by decide)
  rintro rest ⟨number, suffix, rfl, hnumber, hsuffix⟩ k hk hprefix
  obtain ⟨k, rfl⟩ : ∃ m, k = m + 1 := ⟨k - 1, by omega⟩
  -- a dot with a z after it comes again behind the first dot
  have hinfix : [dot, 0x7A] <:+: ascii "zclone_chunk".toList ++
      dot :: (number ++ suffix) := by
    have hstart : [dot, 0x7A] <+: defaultFormat.mid := by decide
    have hbehind : (defaultFormat.mid ++ (number ++ [] ++ suffix)).drop (k + 1) =
        (ascii "zclone_chunk".toList ++ dot :: (number ++ suffix)).drop k := by
      rw [append_nil]
      rfl
    exact (hbehind ▸ hstart.trans hprefix).isInfix.trans (drop_suffix k _).isInfix
  have hinfix := infix_of_infix_append (by decide) hinfix
  rw [infix_cons_iff, cons_prefix_cons] at hinfix
  have hnodot : dot ∉ number := by
    rcases hnumber with ⟨-, hall⟩ | ⟨ctrl, rfl, -, -, -, hall⟩
    · exact hdigits hall
    · exact fun hmem => (mem_cons.mp hmem).elim (by decide) (hdot hall)
  rcases hinfix with ⟨-, hz⟩ | hinfix
  · -- a number or a control type does not start with a z
    rcases hnumber with ⟨hlen, hall⟩ | ⟨ctrl, rfl, -⟩
    · cases number with
      | nil => exact absurd hlen (by decide)
      | cons b number =>
        rw [cons_append, cons_prefix_cons] at hz
        rw [all_cons, Bool.and_eq_true, ← hz.1] at hall
        exact absurd hall.1 (by decide)
    · rw [cons_append, cons_prefix_cons] at hz
      exact absurd hz.1 (by decide)
  · have hinfix := infix_of_infix_append hnodot hinfix
    have hnever : ∀ {t : Text}, dot ∉ t → ¬[dot, 0x7A] <:+: t := fun ht h => ht (h.subset mem_cons_self)
    rcases hsuffix with rfl | ⟨temp, rfl, -, -, hall⟩ | ⟨old, rfl, -, -, hall⟩
    · exact hnever not_mem_nil hinfix
    · exact hnever (fun hmem => (mem_cons.mp hmem).elim (by decide) (hdot hall)) hinfix
    · have hold : ascii "..tmp_".toList ++ old = dot :: dot :: (ascii "tmp_".toList ++ old) := rfl
      rw [hold, infix_cons_iff, infix_cons_iff, cons_prefix_cons, cons_prefix_cons, cons_prefix_cons] at hinfix
      rcases hinfix with hfirst | hsecond | hinfix
      · exact absurd hfirst.2.1 (by decide)
      · exact absurd hsecond.2 (by
          rw [show ascii "tmp_".toList ++ old = 0x74 :: (ascii "mp_".toList ++ old) from rfl, cons_prefix_cons]
          exact fun h => absurd h.1 (by decide))
      · exact hnever (fun hmem => (mem_append.mp hmem).elim (by decide) (hdigits hall)) hinfix

theorem setChunkNameFormat_default :
    setChunkNameFormat (asterisk :: defaultFormat.mid ++ [hashMark, hashMark, hashMark]) 1 = some defaultFormat :=
  by rfl

/-- The second chunk of the file `d/a`, in a transaction. -/
theorem parseChunkName_makeChunkName_default :
    parseChunkName defaultFormat (makeChunkName defaultFormat [0x64, slash, 0x61] 1 [0x30, 0x31, 0x32, 0x78]) =
      some ⟨[0x64, slash, 0x61], 1, [], [0x30, 0x31, 0x32, 0x78]⟩ :=
  (parseChunkName_makeChunkName setChunkNameFormat_default _ _ (.inr (by decide))).2
    ⟨by decide, by decide, by decide, unambiguous_defaultFormat.noEarlierCut _ _ _⟩

/-- A name with a line feed in it has chunks that are not recognised; and with the format `*#` the first chunk of `a1`
is taken for the eleventh one of `a`. -/
theorem parseChunkName_fails :
    (parseChunkName defaultFormat (makeChunkName defaultFormat [0x61, 0x0A, 0x62] 0 [])).isNone = true ∧
      ∃ f, setChunkNameFormat [asterisk, hashMark] 1 = some f ∧
        (parseChunkName f (makeChunkName f [0x61, 0x31] 0 [])).map (fun c => (c.parentPath, c.chunkNo)) =
          some ([0x61], 10) :=
  ⟨by decide +kernel, _, rfl, by decide +kernel⟩

end ZClone.Chunker
