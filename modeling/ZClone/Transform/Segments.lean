import ZClone.Transform.Basic

/-!
# Transformed paths, segment by segment

- `stage` is what one conversion means: it changes the segments it is for and cleans them, and leaves no path if one of
  them cannot be changed.
- `step_shown`: `step` does the same to the path. Levels that are lost do not come back (`stages_spec`).
- `path_keeps_segments_iff`: the names for which `path` keeps the levels.
-/

namespace ZClone.NameTransform

open Utf8 Paths List

section

variable (env : Env) {t : Transform} {x : Text}

/-! ## The meaning of a conversion -/

/-- The pattern of the conversion cannot be compiled. -/
def Transform.panics (t : Transform) : Bool :=
  t.key = .regex && match t.value.splitOn 0x2F with
    | [old, _] => (env.compileRegex old).isNone
    | _ => false

/-- A converted segment. An error of the conversion counts unless only the base is converted. -/
def convert (t : Transform) (baseOnly : Bool) (x : Text) : Option Text :=
  let result := transformPathSegment env x t
  if validateSegment result.1 = none ∧ (baseOnly ∨ result.2 = none) then some result.1 else none

/-- The segments with the last one or all of them converted. -/
def converted (t : Transform) (baseOnly : Bool) (zs : List Text) : Option (List Text) :=
  if baseOnly then (zs.getLast?.bind (convert env t true)).map (zs.dropLast ++ [·]) else zs.mapM (convert env t false)

/-- The path of some segments, or the empty string. -/
def shown : Option (List Text) → Text
  | none => []
  | some zs => toPath zs

/-- `transformPath` on segments. A lone backslash is taken for the root. -/
def stagePath (t : Transform) (baseOnly : Bool) : Option (List Text) → Option (Option (List Text))
  | none => some none
  | some zs =>
    if zs = [] ∨ zs = [backslash] then some none
    else if t.panics env then none
    else some ((converted env t baseOnly zs).map (reduce false))

/-- `transformDir` on segments. -/
def stageDir (t : Transform) : Option (List Text) → Option (Option (List Text))
  | none => some (some [])
  | some zs =>
    if zs.dropLast = [] ∨ zs.dropLast = [backslash] then some (some zs.getLast?.toList)
    else if t.panics env then none
    else some ((converted env t false zs.dropLast).map fun ys => reduce false (ys ++ zs.getLast?.toList))

/-- One conversion of the segments of a path. -/
def stage (isDir : Bool) (zs : Option (List Text)) (t : Transform) : Option (Option (List Text)) :=
  if isDir ∧ t.tag = .file then some zs
  else if t.tag = .dir ∧ ¬isDir then stageDir env t zs
  else stagePath env t (!isDir && decide (t.tag = .file)) zs

/-- A list of conversions of the segments of a path. -/
def stages (isDir : Bool) (opt : List Transform) (zs : Option (List Text)) : Option (Option (List Text)) :=
  opt.foldlM (stage env isDir) zs

theorem converted_base (init : List Text) (x : Text) :
    converted env t true (init ++ [x]) = (convert env t true x).map (init ++ [·]) := by
  simp [converted]

/-! ## What comes out of a conversion -/

theorem ne_nil_of_length {xs ys : List Text} (hne : xs ≠ []) (hlen : ys.length = xs.length) : ys ≠ [] :=
  length_pos_iff.mp (hlen ▸ length_pos_iff.mpr hne)

theorem isSegment_of_validate (h : validateSegment x = none) : IsSegment x := by
  rw [validateSegment] at h
  split_ifs at h with hblank hslash
  refine ⟨?_, hslash⟩
  rintro rfl
  exact hblank rfl

theorem isSegment_of_convert {baseOnly : Bool} {y : Text} (h : convert env t baseOnly x = some y) : IsSegment y := by
  rw [convert] at h
  split_ifs at h with hvalid
  cases h
  exact isSegment_of_validate hvalid.1

theorem truncateChars_ne (s : Text) (max : Int) (keep : Bool) :
    (truncateChars env s max keep).2 ≠ some .mustCompile := by
  rw [truncateChars]
  split_ifs
  · nofun
  · nofun
  all_goals
    dsimp only
    split_ifs <;> nofun

theorem truncateLoop_ne (s exts : Text) (max : Int) : ∀ n, (truncateLoop s exts max n).2 ≠ some .mustCompile
  | 0 => nofun
  | n + 1 => by
    rw [truncateLoop]
    split_ifs
    · nofun
    · exact truncateLoop_ne s exts max n

theorem truncateBytes_ne (s : Text) (max : Int) (keep : Bool) :
    (truncateBytes env s max keep).2 ≠ some .mustCompile := by
  rw [truncateBytes]
  split_ifs
  · nofun
  · nofun
  · exact truncateLoop_ne _ _ _ _
  · exact truncateLoop_ne _ _ _ _

theorem withLimit_ne {f : Text → Int → Result} (h : ∀ s max, (f s max).2 ≠ some .mustCompile) (s value : Text) :
    (withLimit s value f).2 ≠ some .mustCompile := by
  rw [withLimit]
  split
  · nofun
  · exact h _ _

/-- Whether a conversion panics does not depend on the segment. -/
theorem transformPathSegment_panics (x : Text) (t : Transform) :
    (transformPathSegment env x t).2 = some .mustCompile ↔ t.panics env = true := by
  rw [transformPathSegment, Transform.panics]
  cases t.key with
  | truncate | truncateKeepExtension =>
    exact iff_of_false (withLimit_ne (fun s max => truncateChars_ne env s max _) _ _) nofun
  | truncateBytes | truncateBytesKeepExtension =>
    exact iff_of_false (withLimit_ne (fun s max => truncateBytes_ne env s max _) _ _) nofun
  | regex =>
    simp only [decide_true, Bool.true_and]
    rcases splitOn 47 t.value with _ | ⟨old, _ | ⟨new, _ | ⟨more, parts⟩⟩⟩
    · simp
    · simp
    · cases hre : env.compileRegex old <;> simp [hre]
    · simp
  | base64Decode =>
    dsimp only
    split_ifs <;> simp
  | findReplace | encoder | decoder | charmap | command =>
    dsimp only
    split <;> simp
  | _ => simp

variable {xs ys zs init : List Text} {opt : List Transform}

theorem validateSegment_ne (x : Text) : validateSegment x ≠ some .mustCompile := by
  rw [validateSegment]
  split_ifs <;> nofun

/-- A panic is at the first segment. -/
theorem transformSegments_of_panics (ht : t.panics env = true) (hne : xs ≠ []) :
    transformSegments env t xs = .error .mustCompile := by
  obtain ⟨x, xs, rfl⟩ := exists_cons_of_ne_nil hne
  have hpanics := (transformPathSegment_panics env x t).mpr ht
  rw [transformSegments]
  generalize transformPathSegment env x t = r at hpanics
  obtain ⟨conv, err⟩ := r
  cases hpanics
  rfl

/-- All segments are converted; the first error ends it. -/
theorem transformSegments_eq (ht : t.panics env = false) : ∀ xs : List Text,
    (∃ ys, xs.mapM (convert env t false) = some ys ∧ transformSegments env t xs = .ok ys) ∨
      ∃ e, e ≠ .mustCompile ∧ xs.mapM (convert env t false) = none ∧ transformSegments env t xs = .error e
  | [] => .inl ⟨[], rfl, rfl⟩
  | x :: xs => by
    have hpanics := mt (transformPathSegment_panics env x t).mp (by simp [ht])
    rw [transformSegments, mapM_cons, convert]
    generalize transformPathSegment env x t = r at hpanics
    obtain ⟨conv, err⟩ := r
    cases err with
    | some e => exact .inr ⟨e, fun h => hpanics (congrArg some h), by simp, rfl⟩
    | none =>
      cases hvalid : validateSegment conv with
      | some e => exact .inr ⟨e, fun h => validateSegment_ne conv (h ▸ hvalid), by simp, by simp [hvalid]⟩
      | none =>
        obtain ⟨ys, hmap, heq⟩ | ⟨e, hne, hmap, heq⟩ := transformSegments_eq ht xs
        · exact .inl ⟨conv :: ys, by simp [hmap], by simp [hvalid, heq]⟩
        · exact .inr ⟨e, hne, by simp [hmap], by simp [hvalid, heq]⟩

theorem isSegment_of_mapM (h : xs.mapM (convert env t false) = some ys) :
    ys.length = xs.length ∧ ∀ y ∈ ys, IsSegment y := by
  induction xs generalizing ys with
  | nil =>
    cases h
    exact ⟨rfl, nofun⟩
  | cons x xs ih =>
    rw [mapM_cons] at h
    obtain ⟨y, hy, h⟩ := Option.bind_eq_some_iff.mp h
    obtain ⟨ys, hys, h⟩ := Option.bind_eq_some_iff.mp h
    cases h
    obtain ⟨hlen, hseg⟩ := ih hys
    exact ⟨by rw [length_cons, length_cons, hlen], forall_mem_cons.mpr ⟨isSegment_of_convert env hy, hseg⟩⟩

theorem reduce_reduce_append (h : ∀ y ∈ ys, IsSegment y) (b : Text) :
    reduce false (reduce false ys ++ [b]) = reduce false (ys ++ [b]) := by
  have hsame := reduce_of_tidy (tidy_reduce h)
  unfold reduce at hsame ⊢
  rw [foldl_append, foldl_append, hsame]

theorem forall_mem_append_singleton (h : ∀ y ∈ ys, IsSegment y) {b : Text} (hb : IsSegment b) :
    ∀ y ∈ ys ++ [b], IsSegment y := by
  intro y hy
  obtain hy | hy := mem_append.mp hy
  · exact h y hy
  · rw [mem_singleton.mp hy]
    exact hb

theorem isSegment_of_converted {baseOnly : Bool} (hzs : ∀ z ∈ zs, IsSegment z)
    (h : converted env t baseOnly zs = some ys) :
    ys.length = zs.length ∧ ∀ y ∈ ys, IsSegment y := by
  cases baseOnly with
  | false => exact isSegment_of_mapM env h
  | true =>
    obtain ⟨y, hbind, rfl⟩ := Option.map_eq_some_iff.mp h
    obtain ⟨x, hx, hy⟩ := Option.bind_eq_some_iff.mp hbind
    obtain ⟨init, rfl⟩ := getLast?_eq_some_iff.mp hx
    rw [dropLast_concat]
    exact ⟨by simp, forall_mem_append_singleton (fun z hz =>
      hzs z (mem_append_left _ hz)) (isSegment_of_convert env hy)⟩

/-! ## Conversions of paths -/

theorem not_special (hne : zs ≠ []) (h : Tidy zs) (hback : zs ≠ [backslash]) :
    ¬(render zs = [] ∨ render zs = [Paths.slash] ∨ render zs = backslash ∨ render zs = here) := by
  have hsegments := segments_render hne fun x hx => (h.isSegment x hx).no_slash
  rintro (heq | heq | heq | heq)
  · exact render_ne_nil hne h.isSegment heq
  · exact head_render h.isSegment (by rw [heq]; rfl)
  · rw [heq] at hsegments
    exact hback (hsegments.symm.trans (by decide))
  · rw [heq] at hsegments
    obtain ⟨n, names, hzs, hnames⟩ := h
    have hmem : here ∈ zs := hsegments ▸ (by decide)
    rw [hzs] at hmem
    obtain hmem | hmem := mem_append.mp hmem
    · exact absurd (eq_of_mem_replicate hmem) (by decide)
    · exact (hnames here hmem).ne_here rfl

/-- A path of segments is converted, unless it counts as the root. -/
theorem transformPath_render (hne : zs ≠ []) (h : Tidy zs) (hback : zs ≠ [backslash]) (t : Transform)
    (baseOnly : Bool) :
    if t.panics env then transformPath env (render zs) t baseOnly = ([], some .mustCompile)
    else ∃ err, err ≠ some .mustCompile ∧ (baseOnly = false → (err = none ↔ (converted env t false zs).isSome = true)) ∧
      transformPath env (render zs) t baseOnly = (shown ((converted env t baseOnly zs).map (reduce false)), err) := by
  obtain ⟨init, x, rfl⟩ := eq_nil_or_concat' zs |>.resolve_left hne
  have hx := h.isSegment x (by simp)
  rw [transformPath, if_neg (not_special hne h hback)]
  cases baseOnly with
  | true =>
    have hinit : Tidy init := by simpa using h.dropLast
    have hdir : dir (render (init ++ [x])) = toPath init := by
      have hdir := dir_toPath h
      rwa [toPath_of_ne_nil hne, dropLast_concat] at hdir
    have hpanics := transformPathSegment_panics env x t
    rw [if_pos rfl, base_render hx, hdir, converted_base, convert]
    generalize transformPathSegment env x t = r at hpanics
    obtain ⟨conv, err⟩ := r
    dsimp only at hpanics ⊢
    by_cases hpanic : t.panics env = true
    · rw [if_pos hpanic, if_pos (hpanics.mpr hpanic), hpanics.mpr hpanic]
    · have herr := mt hpanics.mp hpanic
      rw [if_neg hpanic, if_neg herr]
      cases hvalid : validateSegment conv with
      | some e => exact ⟨some e, fun h => validateSegment_ne conv (hvalid.trans h), by simp, by simp [shown]⟩
      | none =>
        refine ⟨err, herr, by simp, ?_⟩
        dsimp only
        rw [join_toPath hinit (isSegment_of_validate hvalid)]
        simp [shown]
  | false =>
    have hsegments := segments_render hne fun y hy => (h.isSegment y hy).no_slash
    rw [if_neg Bool.false_ne_true, hsegments, converted, if_neg Bool.false_ne_true]
    by_cases hpanic : t.panics env = true
    · rw [if_pos hpanic, transformSegments_of_panics env hpanic hne]
    · rw [if_neg hpanic]
      obtain ⟨ys, hmap, heq⟩ | ⟨e, hne', hmap, heq⟩ :=
        transformSegments_eq env (Bool.eq_false_iff.mpr hpanic) (init ++ [x])
      · obtain ⟨hlen, hseg⟩ := isSegment_of_mapM env hmap
        refine ⟨none, by simp, by simp [hmap], ?_⟩
        rw [heq, hmap]
        change (join _, none) = _
        rw [join_append (fun e he => eq_of_mem_replicate he) (ne_nil_of_length hne hlen) hseg]
        rfl
      · exact ⟨some e, fun h => hne' (Option.some.inj h), by simp [hmap], by rw [heq, hmap]; rfl⟩

/-- The result of a conversion; a panic is none. -/
def Result.get (r : Result) : Option Text := if r.2 = some .mustCompile then none else some r.1

variable {st st' : Option (List Text)}

theorem transformPath_shown (h : ∀ zs ∈ st, Tidy zs) (t : Transform) (baseOnly : Bool) :
    Result.get (transformPath env (shown st) t baseOnly) = (stagePath env t baseOnly st).map shown := by
  cases st with
  | none => rfl
  | some zs =>
    by_cases hroot : zs = [] ∨ zs = [backslash]
    · rw [stagePath, if_pos hroot]
      rcases hroot with rfl | rfl <;> rfl
    · obtain ⟨hne, hback⟩ := not_or.mp hroot
      have hpath := transformPath_render env hne (h zs rfl) hback t baseOnly
      rw [stagePath, if_neg hroot, shown, toPath_of_ne_nil hne]
      split_ifs at hpath ⊢
      · rw [hpath]
        rfl
      · obtain ⟨err, herr, -, heq⟩ := hpath
        rw [heq]
        exact if_neg herr

omit env in
/-- A lone name, or what is behind a backslash, is a path of its own. -/
theorem tidy_last (h : Tidy (init ++ [x])) (hroot : init = [] ∨ init = [backslash]) : Tidy [x] := by
  rcases hroot with rfl | rfl
  · exact h
  · obtain ⟨n, names, hnames, h⟩ := h
    cases n with
    | zero =>
      obtain rfl : [backslash, x] = names := hnames
      exact tidy_names fun y hy => h y (mem_cons_of_mem _ hy)
    | succ n => exact absurd (cons.inj hnames).1 (by decide)

theorem transformDir_shown (h : ∀ zs ∈ st, Tidy zs) (t : Transform) :
    Result.get (transformDir env (shown st) t) = (stageDir env t st).map shown := by
  cases st with
  | none => rfl
  | some zs =>
    have h := h zs rfl
    rcases eq_nil_or_concat' zs with rfl | ⟨init, x, rfl⟩
    · rfl
    have hx := h.isSegment x (by simp)
    have hdir := dir_toPath h
    have hinit : Tidy init := by simpa using h.dropLast
    have hbase : base (toPath (init ++ [x])) = x := by rw [toPath_of_ne_nil (by simp), base_render hx]
    rw [dropLast_concat] at hdir
    rw [stageDir, dropLast_concat, getLast?_concat, transformDir, shown, hdir, hbase]
    by_cases hroot : init = [] ∨ init = [backslash]
    · -- there is no directory, or it is left out
      have hjoin := @join_append [[]] [x] (by simp) (cons_ne_nil _ _) (by simpa using hx)
      rw [reduce_of_tidy (tidy_last h hroot)] at hjoin
      rw [if_pos hroot]
      rcases hroot with rfl | rfl
      · exact congrArg some hjoin
      · exact congrArg some hjoin
    · obtain ⟨hne, hback⟩ := not_or.mp hroot
      have hpath := transformPath_render env hne hinit hback t false
      rw [if_neg hroot, toPath_of_ne_nil hne]
      split_ifs at hpath ⊢
      · rw [hpath]
        rfl
      · obtain ⟨err, herr, hnone, heq⟩ := hpath
        rw [heq]
        cases hconverted : converted env t false init with rw [hconverted] at hnone
        | none =>
          cases err with
          | none => simp at hnone
          | some e => exact if_neg herr
        | some ys =>
          rw [(hnone rfl).mpr rfl]
          obtain ⟨-, hseg⟩ := isSegment_of_converted env hinit.isSegment hconverted
          change some (join [toPath (reduce false ys), x]) = some (toPath (reduce false (ys ++ [x])))
          rw [join_toPath (tidy_reduce hseg) hx, reduce_reduce_append hseg]

/-- One conversion of a path does to it what the conversion means. -/
theorem step_shown (isDir : Bool) (h : ∀ zs ∈ st, Tidy zs) (t : Transform) :
    step env isDir (shown st) t = (stage env isDir st t).map shown := by
  rw [step, stage]
  split_ifs with hskip hdir
  · rfl
  · exact transformDir_shown env h t
  · exact transformPath_shown env h t _

/-! ## Levels -/

/-- The number of segments; the empty string has none. -/
def levels (st : Option (List Text)) : Nat := (st.getD []).length

omit env in
theorem length_reduce_le (h : ∀ y ∈ ys, IsSegment y) : (reduce false ys).length ≤ ys.length := by
  rcases reduce_eq_or_lt h with heq | hlt
  · exact le_of_eq (congrArg length heq)
  · exact le_of_lt hlt

/-- Levels that are lost do not come back. -/
theorem stage_spec {isDir : Bool} (h : ∀ zs ∈ st, Tidy zs) (hstage : stage env isDir st t = some st') :
    (∀ zs ∈ st', Tidy zs) ∧ levels st' ≤ levels st := by
  have hnone : ∀ st, (∀ zs ∈ (none : Option (List Text)), Tidy zs) ∧ levels none ≤ levels st :=
    fun _ => ⟨nofun, Nat.zero_le _⟩
  have hconverted :
    ∀ {baseOnly : Bool} {zs : List Text} {f : List Text → List Text} {n : Nat}, (∀ z ∈ zs, IsSegment z) →
      (∀ ys, ys.length = zs.length → (∀ y ∈ ys, IsSegment y) → Tidy (f ys) ∧ (f ys).length ≤ n) →
      (∀ zs' ∈ (converted env t baseOnly zs).map f, Tidy zs') ∧ levels ((converted env t baseOnly zs).map f) ≤ n := by
    intro baseOnly zs f n hzs hf
    cases hconv : converted env t baseOnly zs with
    | none => exact ⟨nofun, Nat.zero_le _⟩
    | some ys =>
      obtain ⟨hlen, hseg⟩ := isSegment_of_converted env hzs hconv
      obtain ⟨htidy, hle⟩ := hf ys hlen hseg
      exact ⟨by rintro _ ⟨⟩; exact htidy, hle⟩
  rw [stage] at hstage
  split_ifs at hstage
  · cases hstage
    exact ⟨h, le_refl _⟩
  · cases st with
    | none =>
      cases hstage
      exact ⟨by rintro _ ⟨⟩; exact tidy_nil, le_refl _⟩
    | some zs =>
      have h := h zs rfl
      rcases eq_nil_or_concat' zs with rfl | ⟨init, x, rfl⟩
      · cases hstage
        exact ⟨by rintro _ ⟨⟩; exact tidy_nil, le_refl _⟩
      have hx := h.isSegment x (by simp)
      rw [stageDir, dropLast_concat, getLast?_concat] at hstage
      split_ifs at hstage with hroot
      · cases hstage
        exact ⟨by rintro _ ⟨⟩; exact tidy_last h hroot, by simp [levels]⟩
      · cases hstage
        refine hconverted (fun z hz => h.isSegment z (mem_append_left _ hz)) fun ys hlen hseg => ?_
        have hall := forall_mem_append_singleton hseg hx
        exact ⟨tidy_reduce hall, (length_reduce_le hall).trans (by simp [levels, hlen])⟩
  · cases st with
    | none =>
      cases hstage
      exact hnone _
    | some zs =>
      rw [stagePath] at hstage
      split_ifs at hstage
      · cases hstage
        exact hnone _
      · cases hstage
        exact hconverted (h zs rfl).isSegment fun ys hlen hseg =>
          ⟨tidy_reduce hseg, (length_reduce_le hseg).trans (le_of_eq hlen)⟩

theorem stages_spec {isDir : Bool} (h : ∀ zs ∈ st, Tidy zs) (hstages : stages env isDir opt st = some st') :
    (∀ zs ∈ st', Tidy zs) ∧ levels st' ≤ levels st := by
  induction opt generalizing st with
  | nil =>
    cases hstages
    exact ⟨h, le_refl _⟩
  | cons t opt ih =>
    rw [stages, foldlM_cons] at hstages
    obtain ⟨st₁, hfirst, hrest⟩ := Option.bind_eq_some_iff.mp hstages
    obtain ⟨htidy, hle⟩ := stage_spec env h hfirst
    obtain ⟨htidy', hle'⟩ := ih htidy hrest
    exact ⟨htidy', hle'.trans hle⟩

/-- A list of conversions of a path does to it what the conversions mean. -/
theorem foldlM_step_shown (isDir : Bool) (opt : List Transform) (h : ∀ zs ∈ st, Tidy zs) :
    opt.foldlM (step env isDir) (shown st) = (stages env isDir opt st).map shown := by
  induction opt generalizing st with
  | nil => rfl
  | cons t opt ih =>
    rw [foldlM_cons, step_shown env isDir h t, stages, foldlM_cons]
    cases hstage : stage env isDir st t with
    | none => rfl
    | some st' => exact ih (stage_spec env h hstage).1

omit env in
theorem eq_some_of_levels {n : Nat} (hn : 0 < n) (h : levels st = n) : ∃ zs, st = some zs ∧ zs.length = n := by
  cases st with
  | none => exact absurd h (Nat.ne_of_lt hn)
  | some zs => exact ⟨zs, rfl, h⟩

/-- What every conversion that keeps the levels keeps, a list of them does. -/
theorem stages_induct {isDir : Bool} {n : Nat} {R : List Text → Prop}
    (hR : ∀ t ∈ opt, ∀ zs ys, Tidy zs → zs.length = n → R zs → stage env isDir (some zs) t = some (some ys) →
      ys.length = n → R ys)
    (hn : 0 < n) (hxs : Tidy xs) (hlen : xs.length = n) (hstart : R xs)
    (hstages : stages env isDir opt (some xs) = some (some ys)) (hlen' : ys.length = n) : R ys := by
  induction opt generalizing xs with
  | nil =>
    cases hstages
    exact hstart
  | cons t opt ih =>
    rw [stages, foldlM_cons] at hstages
    obtain ⟨st, hfirst, hrest⟩ := Option.bind_eq_some_iff.mp hstages
    obtain ⟨htidy, hle⟩ := stage_spec env (by rintro _ ⟨⟩; exact hxs) hfirst
    obtain ⟨-, hle'⟩ := stages_spec env htidy hrest
    obtain ⟨zs, rfl, hzs⟩ := eq_some_of_levels hn (le_antisymm (hle.trans (le_of_eq hlen)) (hlen'.symm.le.trans hle'))
    exact ih (fun t' ht' => hR t' (mem_cons_of_mem t ht')) (htidy zs rfl) hzs
      (hR t mem_cons_self xs zs hxs hlen hstart hfirst hzs) hrest

/-- A conversion for files changes the last segment only. -/
theorem stage_file {isDir : Bool} (ht : t.tag = .file) (h : Tidy zs)
    (hstage : stage env isDir (some zs) t = some (some ys))
    (hlen : ys.length = zs.length) : if isDir then ys = zs else ys.dropLast = zs.dropLast := by
  rw [stage] at hstage
  cases isDir with
  | true =>
    rw [if_pos ⟨rfl, ht⟩] at hstage
    cases hstage
    rfl
  | false =>
    rw [if_neg (by simp), if_neg (by rw [ht]; simp), ht, stagePath] at hstage
    split_ifs at hstage with hroot
    · cases hstage
    · obtain ⟨zs', hconv, rfl⟩ := Option.map_eq_some_iff.mp (Option.some.inj hstage)
      obtain ⟨hlen', hseg⟩ := isSegment_of_converted env h.isSegment hconv
      obtain ⟨init, x, rfl⟩ := eq_nil_or_concat' zs |>.resolve_left fun hnil => hroot (.inl hnil)
      obtain ⟨y, -, rfl⟩ := Option.map_eq_some_iff.mp ((converted_base env init x).symm.trans hconv)
      rw [(reduce_eq_or_lt hseg).resolve_right (by omega)]
      simp

/-- A conversion for directories leaves the last segment of a file. -/
theorem stage_dir (ht : t.tag = .dir) (h : Tidy zs) (hstage : stage env false (some zs) t = some (some ys))
    (hlen : ys.length = zs.length) : ys.getLast? = zs.getLast? := by
  rw [stage, if_neg (by simp), if_pos ⟨ht, by simp⟩, stageDir] at hstage
  rcases eq_nil_or_concat' zs with rfl | ⟨init, x, rfl⟩
  · rw [length_eq_zero_iff.mp hlen]
  rw [dropLast_concat, getLast?_concat] at hstage
  rw [getLast?_concat]
  split_ifs at hstage
  · cases hstage
    rfl
  · obtain ⟨zs', hconv, rfl⟩ := Option.map_eq_some_iff.mp (Option.some.inj hstage)
    obtain ⟨hlen', hseg⟩ := isSegment_of_converted env (fun z hz => h.isSegment z (mem_append_left _ hz)) hconv
    have hall := forall_mem_append_singleton hseg (h.isSegment x (by simp))
    have hsame := (reduce_eq_or_lt hall).resolve_right (by simp at hlen ⊢; omega)
    rw [show (some x).toList = [x] from rfl, hsame]
    exact getLast?_concat

section

variable (isDir : Bool) (opt : List Transform)

/-- As many segments as before, each of them a name. -/
def KeepsLevels (xs : List Text) (s : Text) : Prop := ∃ ys, s = render ys ∧ ys.length = xs.length ∧ ∀ y ∈ ys, IsName y

/-- Conversions for files leave directories alone, and conversions for directories leave files alone. -/
def KeepsOthers (xs : List Text) (s : Text) : Prop :=
  ((∀ t ∈ opt, t.tag = .file) → if isDir then s = render xs else ∃ b, s = render (xs.dropLast ++ [b])) ∧
    ((∀ t ∈ opt, t.tag = .dir) → isDir = false → ∃ dirs, s = render (dirs ++ xs.getLast?.toList))

/-- A conversion panics, or they lead to a path that starts above its directory, or they lose the level of a path of one
segment. -/
def Escapes (xs : List Text) : Prop :=
  match stages env isDir opt (some xs) with
  | none => True
  | some st => if levels st = xs.length then (st.getD []).head? = some up else xs.length = 1

section

variable (hne : xs ≠ []) (h : ∀ x ∈ xs, IsName x)

include hne h

/-- `path` returns what the conversions mean. If they lose levels, it returns its argument, if that has more than one
segment. -/
theorem path_eq : path env opt (render xs) isDir = (stages env isDir opt (some xs)).map fun st =>
    if levels st = xs.length ∨ xs.length = 1 then shown st else render xs := by
  have htidy : ∀ zs ∈ some xs, Tidy zs := by
    rintro _ ⟨⟩
    exact tidy_names h
  have hcount : (render xs).count slash = xs.length - 1 := count_render fun x hx => (h x hx).no_slash
  have hpos : 0 < xs.length := length_pos_iff.mpr hne
  have hfold := foldlM_step_shown env isDir opt htidy
  rw [shown, toPath_of_ne_nil hne] at hfold
  rw [path, hfold, hcount, Option.map_map]
  cases hstages : stages env isDir opt (some xs) with
  | none => rfl
  | some st =>
    obtain ⟨htidy', hle⟩ := stages_spec env htidy hstages
    have hcount' : (shown st).count slash = levels st - 1 := by
      cases st with
      | none => rfl
      | some zs => exact count_toPath (htidy' zs rfl)
    have hle : levels st ≤ xs.length := hle
    simp only [Option.map_some, Function.comp_apply, hcount', ne_eq, ite_not]
    congr 1
    exact if_congr (by omega) rfl rfl

omit hne in
theorem keepsOthers_shown {ys : List Text} (hpos : 0 < xs.length)
    (hstages : stages env isDir opt (some xs) = some (some ys))
    (hlen : ys.length = xs.length) : KeepsOthers isDir opt xs (render ys) := by
  constructor
  · intro hopt
    have hfile := stages_induct env (R := fun zs => if isDir then zs = xs else zs.dropLast = xs.dropLast)
      (fun t ht zs ys hzs hlen hR hstage hlen' => by
        have hstep := stage_file env (hopt t ht) hzs hstage (hlen'.trans hlen.symm)
        split_ifs at hR hstep ⊢
        · exact hstep.trans hR
        · exact hstep.trans hR) hpos (tidy_names h) rfl (by split_ifs <;> rfl) hstages hlen
    split_ifs at hfile ⊢
    · rw [hfile]
    · obtain ⟨init, y, rfl⟩ := eq_nil_or_concat' ys |>.resolve_left (length_pos_iff.mp (hlen ▸ hpos))
      rw [dropLast_concat] at hfile
      exact ⟨y, by rw [hfile]⟩
  · rintro hopt rfl
    have hlast := stages_induct env (R := fun zs => zs.getLast? = xs.getLast?)
      (fun t ht zs ys hzs hlen hR hstage hlen' =>
        (stage_dir env (hopt t ht) hzs hstage (hlen'.trans hlen.symm)).trans hR)
      hpos (tidy_names h) rfl rfl hstages hlen
    obtain ⟨init, y, rfl⟩ := eq_nil_or_concat' ys |>.resolve_left (length_pos_iff.mp (hlen ▸ hpos))
    rw [getLast?_concat] at hlast
    exact ⟨init, by rw [← hlast]; rfl⟩

omit h in
theorem keepsOthers_self : KeepsOthers isDir opt xs (render xs) := by
  obtain ⟨init, x, rfl⟩ := eq_nil_or_concat' xs |>.resolve_left hne
  rw [KeepsOthers, dropLast_concat, getLast?_concat]
  refine ⟨fun _ => ?_, fun _ _ => ⟨init, rfl⟩⟩
  split_ifs
  · rfl
  · exact ⟨x, rfl⟩

end

/-- `path` keeps the levels of a path and the parts that its conversions are not for, unless a conversion panics, or
they lead above the directory of the path or lose the level of a path of one segment. -/
theorem path_keeps_segments_iff {xs : List Text} (hne : xs ≠ []) (h : ∀ x ∈ xs, IsName x) :
    (∃ s, path env opt (render xs) isDir = some s ∧ KeepsLevels xs s ∧ KeepsOthers isDir opt xs s) ↔
      ¬Escapes env isDir opt xs := by
  have hpos : 0 < xs.length := length_pos_iff.mpr hne
  rw [path_eq env isDir opt hne h, Escapes]
  cases hstages : stages env isDir opt (some xs) with
  | none => simp
  | some st =>
    simp only [Option.map_some, Option.some.injEq, exists_eq_left']
    by_cases hlevels : levels st = xs.length
    · obtain ⟨ys, rfl, hlen⟩ := eq_some_of_levels hpos hlevels
      have hys := ne_nil_of_length hne hlen
      have htidy := (stages_spec env (by rintro _ ⟨⟩; exact tidy_names h) hstages).1 ys rfl
      rw [if_pos (.inl hlevels), if_pos hlevels, shown, toPath_of_ne_nil hys]
      constructor
      · rintro ⟨⟨names, heq, -, hnames⟩, -⟩ hup
        obtain rfl := render_injective htidy.isSegment (fun y hy => (hnames y hy).toIsSegment) heq
        exact (hnames up (mem_of_head? hup)).ne_up rfl
      · intro hup
        refine ⟨⟨ys, rfl, hlen, ?_⟩, keepsOthers_shown env isDir opt h hpos hstages hlen⟩
        obtain ⟨n, names, rfl, hnames⟩ := htidy
        cases n with
        | zero => exact hnames
        | succ n => exact absurd rfl hup
    · rw [if_neg hlevels]
      by_cases hone : xs.length = 1
      · -- there is nothing left
        rw [if_pos (.inr hone)]
        refine iff_of_false ?_ (not_not.mpr hone)
        rintro ⟨⟨ys, heq, hlen, hnames⟩, -⟩
        obtain ⟨y, rfl⟩ := length_eq_one_iff.mp (hlen.trans hone)
        have hle : levels st ≤ xs.length := (stages_spec env (by rintro _ ⟨⟩; exact tidy_names h) hstages).2
        have hy := hnames y mem_cons_self
        rw [render_singleton] at heq
        cases st with
        | none => exact hy.ne_nil heq.symm
        | some zs =>
          obtain rfl : zs = [] := length_eq_zero_iff.mp (show levels (some zs) = 0 by omega)
          exact hy.ne_here heq.symm
      · rw [if_neg (not_or.mpr ⟨hlevels, hone⟩)]
        exact iff_of_true ⟨⟨xs, rfl, rfl, h⟩, keepsOthers_self isDir opt hne⟩ hone

end

end

/-- Libraries that do nothing; a lone `[` is no pattern. -/
def plainEnv : Env where
  nfc := id
  nfd := id
  nfkc := id
  nfkd := id
  base64Encode := id
  base64Decode s := (s, true)
  encoding _ := none
  iso8859_1 := some
  windows1252 := some
  macintosh := some
  charmap _ := none
  toLower := id
  toUpper := id
  toTitle := id
  queryEscape := id
  timeGlobs := id
  compileRegex pattern := if pattern = [0x5B] then none else some fun s _ => s
  command _ s := some s
  mimeType _ := false

/-- Trimming a prefix of the directories of `xa/xb/xc`, and a suffix for the file. -/
theorem path_keeps_segments_trimmed :
    let opt := [Transform.mk .trimPrefix [0x78] .dir, .mk .withSuffix [0x79] .file];
    path plainEnv opt (render [[0x78, 0x61], [0x78, 0x62], [0x78, 0x63]]) false =
        some (render [[0x61], [0x62], [0x78, 0x63, 0x79]]) ∧
      ∃ s, path plainEnv opt (render [[0x78, 0x61], [0x78, 0x62], [0x78, 0x63]]) false = some s ∧
        KeepsLevels [[0x78, 0x61], [0x78, 0x62], [0x78, 0x63]] s ∧
        KeepsOthers false opt [[0x78, 0x61], [0x78, 0x62], [0x78, 0x63]] s := by
  refine ⟨by decide +kernel, (path_keeps_segments_iff plainEnv false _ (cons_ne_nil _ _) (by decide)).mpr ?_⟩
  have hstages : stages plainEnv false [Transform.mk .trimPrefix [0x78] .dir, .mk .withSuffix [0x79] .file]
      (some [[0x78, 0x61], [0x78, 0x62], [0x78, 0x63]]) = some (some [[0x61], [0x62], [0x78, 0x63, 0x79]]) := by
    decide +kernel
  rw [Escapes, hstages]
  decide

/-- Trimming `x` from `x../f` leads above the directory, a failed truncation of `a.bc` leaves nothing, and a pattern
that is not valid is a panic. -/
theorem path_leads_up :
    path plainEnv [⟨.trimPrefix, [0x78], .all⟩] (render [[0x78, 0x2E, 0x2E], [0x66]]) false =
      some (render [up, [0x66]]) ∧
      path plainEnv [⟨.truncateKeepExtension, [0x32], .file⟩] (render [[0x61, 0x2E, 0x62, 0x63]]) false = some [] ∧
      path plainEnv [⟨.regex, [0x5B, 0x2F, 0x78], .all⟩] (render [[0x61], [0x62]]) false = none := by
  refine ⟨?_, ?_, ?_⟩ <;> decide +kernel

end ZClone.NameTransform
