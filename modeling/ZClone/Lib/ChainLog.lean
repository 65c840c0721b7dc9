import Mathlib.Data.List.Infix
import Mathlib.Data.List.Basic

/-!
# Append-only logs of chained lines

A log is a text of terminated lines. Every line carries an event and a digest, and the digest of a line is `link d e`
for its event `e` and the digest `d` of the line before it.

* `splitLines` cuts a text into its complete lines and the unterminated rest (`splitLines_append`).
* `render d es` is the text that appending the events `es` writes, starting from the digest `d`; `scan d ls` reads
  complete lines back and refuses a line that is no row or whose digest is not the chained one. A rendered log scans
  to its events (`scan_lines`), and a scan succeeds iff every line is a row with the chained digest (`scan_eq_some`).
* A prefix of a rendered log is a rendered log and a rest without terminator (`prefix_render`): this is what a write
  that stops at any byte leaves behind.
-/

namespace ZClone.Lib

open List

/-! ## Lines -/

section Lines

variable {α : Type} [DecidableEq α]

/-- The complete lines of a text, each with its terminator, and the unterminated rest. -/
def splitLines (nl : α) : List α → List (List α) × List α
  | [] => ([], [])
  | c :: cs =>
    if c = nl then ([c] :: (splitLines nl cs).1, (splitLines nl cs).2)
    else match splitLines nl cs with
      | ([], t) => ([], c :: t)
      | (l :: ls, t) => ((c :: l) :: ls, t)

variable {nl : α}

/-- A text without terminator has no complete line. -/
theorem splitLines_rest : ∀ {t : List α}, nl ∉ t → splitLines nl t = ([], t)
  | [], _ => rfl
  | c :: t, h => by
    have hc : c ≠ nl := fun e => h (e ▸ mem_cons_self)
    simp [splitLines, hc, splitLines_rest (t := t) (fun m => h (mem_cons_of_mem _ m))]

/-- The first line is cut at the first terminator. -/
theorem splitLines_append : ∀ {l : List α} (s : List α), nl ∉ l →
    splitLines nl (l ++ nl :: s) = ((l ++ [nl]) :: (splitLines nl s).1, (splitLines nl s).2)
  | [], s, _ => by simp [splitLines]
  | c :: l, s, h => by
    have hc : c ≠ nl := fun e => h (e ▸ mem_cons_self)
    simp [splitLines, hc, splitLines_append s (fun m => h (mem_cons_of_mem _ m))]

omit [DecidableEq α] in
/-- A proper prefix of a line is unterminated. -/
theorem notMem_of_prefix_line {l p : List α} (hl : nl ∉ l) (hp : p <+: l ++ [nl]) (hne : p ≠ l ++ [nl]) : nl ∉ p := by
  obtain ⟨t, ht⟩ := hp
  rcases eq_nil_or_concat' t with rfl | ⟨t', c, rfl⟩
  · exact absurd (by simpa using ht) hne
  · rw [← append_assoc] at ht
    have hpt : p ++ t' = l := (append_inj' ht rfl).1
    exact fun m => hl (hpt ▸ mem_append_left _ m)

end Lines

/-! ## Chained rows -/

/-- How events are written as chained rows: `enc e d` is the line of event `e` with digest `d`, without terminator,
and `dec` reads a terminated line back. -/
structure RowCodec (α E D : Type) where
  nl : α
  link : D → E → D
  enc : E → D → List α
  dec : List α → Option (E × D)
  dec_enc : ∀ e d, dec (enc e d ++ [nl]) = some (e, d)
  nl_notMem : ∀ e d, nl ∉ enc e d

namespace RowCodec

section Render

variable {α E D : Type} (C : RowCodec α E D)

/-- The digest after the events `es`. -/
def chain (d : D) (es : List E) : D := es.foldl C.link d

/-- The terminated line that appending `e` after the digest `d` writes. -/
def line (d : D) (e : E) : List α := C.enc e (C.link d e) ++ [C.nl]

/-- The lines that appending `es` after the digest `d` writes. -/
def lines : D → List E → List (List α)
  | _, [] => []
  | d, e :: es => C.line d e :: lines (C.link d e) es

/-- The text that appending `es` after the digest `d` writes. -/
def render (d : D) (es : List E) : List α := (C.lines d es).flatten

variable {C}

@[simp] theorem render_nil (d : D) : C.render d [] = [] := rfl

theorem render_cons (d : D) (e : E) (es : List E) : C.render d (e :: es) = C.line d e ++ C.render (C.link d e) es := rfl

theorem render_append : ∀ (d : D) (es fs : List E), C.render d (es ++ fs) = C.render d es ++ C.render (C.chain d es) fs
  | _, [], _ => rfl
  | d, e :: es, fs => by
    rw [cons_append, render_cons, render_append (C.link d e) es fs, render_cons, append_assoc]
    rfl

theorem render_snoc (d : D) (es : List E) (e : E) :
    C.render d (es ++ [e]) = C.render d es ++ C.line (C.chain d es) e := by
  rw [render_append, render_cons, render_nil, append_nil]

/-- A rendered log and an unterminated rest are cut into the lines of the log and the rest. -/
theorem splitLines_render [DecidableEq α] : ∀ (d : D) (es : List E) {t : List α}, C.nl ∉ t →
    splitLines C.nl (C.render d es ++ t) = (C.lines d es, t)
  | _, [], _, ht => splitLines_rest ht
  | d, e :: es, t, ht => by
    have ih := splitLines_render (C.link d e) es ht
    rw [render_cons, line, append_assoc, append_assoc, singleton_append,
      splitLines_append _ (C.nl_notMem e _), ih]
    rfl

/-- **A stopped write.** A prefix of a log is the log of the events whose lines it contains, and an unterminated
rest. -/
theorem prefix_render : ∀ {d : D} {es : List E} {p : List α}, p <+: C.render d es →
    ∃ fs gs t, es = fs ++ gs ∧ p = C.render d fs ++ t ∧ C.nl ∉ t
  | _, [], p, h => ⟨[], [], [], rfl, by simpa using prefix_nil.1 h, by simp⟩
  | d, e :: es, p, ⟨s, hs⟩ => by
    rw [render_cons] at hs
    rcases append_eq_append_iff.1 hs with ⟨a', ha, -⟩ | ⟨c', hp, hc⟩
    · -- the write stopped inside the first line
      by_cases hne : p = C.line d e
      · exact ⟨[e], es, [], rfl, by rw [hne, render_cons]; simp, by simp⟩
      · exact ⟨[], e :: es, p, rfl, rfl, notMem_of_prefix_line (C.nl_notMem e _) ⟨a', ha.symm⟩ hne⟩
    · have hc' : c' <+: C.render (C.link d e) es := ⟨s, hc.symm⟩
      obtain ⟨fs, gs, t, hes, hc', ht⟩ := prefix_render hc'
      exact ⟨e :: fs, gs, t, by rw [hes]; rfl, by rw [hp, hc', render_cons, append_assoc], ht⟩

/-- The log of one more event does not fit into a log and an unterminated rest. -/
theorem not_prefix_snoc {d : D} {fs : List E} {t : List α} (ht : C.nl ∉ t) (g : E) (gs : List E) :
    ¬ C.render d (fs ++ g :: gs) <+: C.render d fs ++ t := by
  rw [render_append, prefix_append_right_inj, render_cons]
  intro h
  exact ht (h.subset (by simp [line]))

end Render

/-! ## Reading back -/

section Scan

variable {α E D : Type} [DecidableEq D] (C : RowCodec α E D)

/-- Reading complete lines: the events and the last digest, if every line is a row with the chained digest. -/
def scan : D → List (List α) → Option (List E × D)
  | d, [] => some ([], d)
  | d, l :: ls =>
    match C.dec l with
    | none => none
    | some (e, x) => if x = C.link d e then (scan x ls).map fun r => (e :: r.1, r.2) else none

/-- The rows that lines decode to, if all of them do. -/
def rows : List (List α) → Option (List (E × D)) := List.mapM C.dec

/-- Every row has the digest chained over the events up to it. -/
def Chained (d : D) (rs : List (E × D)) : Prop :=
  ∀ k (h : k < rs.length), rs[k].2 = C.chain d ((rs.take (k + 1)).map Prod.fst)

variable {C}

variable {l : List α} {ls : List (List α)} {d x : D} {rs : List (E × D)} {es : List E} {e : E}

theorem scan_cons_none (h : C.dec l = none) : C.scan d (l :: ls) = none := by
  simp [scan, h]

theorem scan_cons_bad (h : C.dec l = some (e, x)) (hx : x ≠ C.link d e) : C.scan d (l :: ls) = none := by
  simp [scan, h, hx]

theorem scan_cons_row (h : C.dec l = some (e, C.link d e)) :
    C.scan d (l :: ls) = (C.scan (C.link d e) ls).map fun r => (e :: r.1, r.2) := by
  simp [scan, h]

/-- The lines of a log read back as its events, ending at its last digest. -/
theorem scan_lines : ∀ (d : D) (es : List E), C.scan d (C.lines d es) = some (es, C.chain d es)
  | _, [] => rfl
  | d, e :: es => by
    simp [lines, scan, line, C.dec_enc, scan_lines (C.link d e) es, chain]

omit [DecidableEq D] in
theorem chained_cons : C.Chained d ((e, x) :: rs) ↔ x = C.link d e ∧ C.Chained x rs := by
  constructor
  · intro h
    have hx : x = C.link d e := h 0 (by simp)
    refine ⟨hx, fun k hk => ?_⟩
    have := h (k + 1) (by simpa using hk)
    simpa [chain, ← hx] using this
  · rintro ⟨hx, h⟩ k hk
    cases k with
    | zero => exact hx
    | succ k => simpa [chain, ← hx] using h k (by simpa using hk)

omit [DecidableEq D] in
theorem rows_cons : C.rows (l :: ls) = some rs ↔ ∃ r rs', C.dec l = some r ∧ C.rows ls = some rs' ∧ rs = r :: rs' := by
  unfold rows
  rw [mapM_cons]
  simp only [Option.bind_eq_bind, Option.bind_eq_some_iff, Option.pure_def, Option.some.injEq]
  constructor
  · rintro ⟨r, hr, rs', hrs, rfl⟩
    exact ⟨r, rs', hr, hrs, rfl⟩
  · rintro ⟨r, rs', hr, hrs, rfl⟩
    exact ⟨r, hr, rs', hrs, rfl⟩

/-- **What a scan accepts**: every line is a row, every row has the chained digest, and the events are the rows'. -/
theorem scan_eq_some : ∀ {d : D} {ls : List (List α)} {es : List E} {d' : D}, C.scan d ls = some (es, d') ↔
    ∃ rs, C.rows ls = some rs ∧ C.Chained d rs ∧ es = rs.map Prod.fst ∧ d' = C.chain d es
  | d, [], es, d' => by
    constructor
    · intro h
      obtain ⟨rfl, rfl⟩ := h
      exact ⟨[], rfl, fun k hk => by simp at hk, rfl, rfl⟩
    · rintro ⟨rs, hr, -, rfl, rfl⟩
      simp only [rows, mapM_nil, Option.pure_def, Option.some.injEq] at hr
      subst hr
      rfl
  | d, l :: ls, es, d' => by
    simp only [rows_cons, scan]
    cases hl : C.dec l with
    | none => simp
    | some r =>
      constructor
      · intro h
        dsimp only at h
        split at h
        · rename_i hx
          obtain ⟨⟨fs, y⟩, hs, he⟩ := Option.map_eq_some_iff.1 h
          obtain ⟨rs, hr, hc, rfl, rfl⟩ := scan_eq_some.1 hs
          cases he
          exact ⟨_, ⟨_, rs, rfl, hr, rfl⟩, chained_cons.2 ⟨hx, hc⟩, rfl, by rw [hx]; rfl⟩
        · cases h
      · rintro ⟨_, ⟨_, rs, he, hr, rfl⟩, hc, rfl, rfl⟩
        cases he
        obtain ⟨hx, hc⟩ := chained_cons.1 hc
        dsimp only
        rw [if_pos hx, scan_eq_some.2 ⟨rs, hr, hc, rfl, rfl⟩, hx]
        rfl

/-! ## Rearranged lines -/

omit [DecidableEq D] in
theorem chain_snoc (d : D) (es : List E) (e : E) : C.chain d (es ++ [e]) = C.link (C.chain d es) e := by
  simp [chain]

omit [DecidableEq D] in
theorem mem_lines : ∀ {d : D} {es : List E}, l ∈ C.lines d es ↔ ∃ fs e, fs ++ [e] <+: es ∧ l = C.line (C.chain d fs) e
  | d, [] => by simp [lines]
  | d, e :: es => by
    rw [lines, mem_cons, mem_lines]
    constructor
    · rintro (rfl | ⟨fs, f, hp, rfl⟩)
      · exact ⟨[], e, by simp, rfl⟩
      · exact ⟨e :: fs, f, by simpa using hp, rfl⟩
    · rintro ⟨fs, f, hp, rfl⟩
      cases fs with
      | nil =>
        obtain ⟨rfl, -⟩ := cons_prefix_cons.1 hp
        exact .inl rfl
      | cons g fs =>
        obtain ⟨rfl, hfs⟩ := cons_prefix_cons.1 hp
        exact .inr ⟨fs, f, hfs, rfl⟩

/-- Along `es`, links come from one digest only, and none leads back to the first digest. -/
structure NoCollision (C : RowCodec α E D) (d : D) (es : List E) : Prop where
  link_inj : ∀ {fs gs e f}, fs <+: es → gs <+: es → e ∈ es → f ∈ es →
    C.link (C.chain d fs) e = C.link (C.chain d gs) f → C.chain d fs = C.chain d gs
  link_ne : ∀ {fs e}, fs <+: es → e ∈ es → C.link (C.chain d fs) e ≠ d

omit [DecidableEq D] in
/-- Different prefixes then have different digests. -/
theorem NoCollision.length_le (h : NoCollision C d es) : ∀ {fs gs : List E}, fs <+: es →
    gs <+: es → C.chain d fs = C.chain d gs → gs.length ≤ fs.length := by
  intro fs
  induction fs using reverseRecOn with
  | nil =>
    intro gs _ hg he
    rcases eq_nil_or_concat' gs with rfl | ⟨gs, g, rfl⟩
    · simp
    · rw [chain_snoc] at he
      exact absurd he.symm (h.link_ne ((prefix_append _ _).trans hg) (hg.subset (by simp)))
  | append_singleton fs f ih =>
    intro gs hf hg he
    rcases eq_nil_or_concat' gs with rfl | ⟨gs, g, rfl⟩
    · simp
    · rw [chain_snoc, chain_snoc] at he
      have hf' := (prefix_append _ _).trans hf
      have hg' := (prefix_append _ _).trans hg
      have := ih hf' hg' (h.link_inj hf' hg' (hf.subset (by simp)) (hg.subset (by simp)) he)
      simpa using this

omit [DecidableEq D] in
theorem NoCollision.chain_inj {fs gs : List E} (h : NoCollision C d es) (hf : fs <+: es) (hg : gs <+: es)
    (he : C.chain d fs = C.chain d gs) : fs = gs := by
  have hlen : fs.length = gs.length := le_antisymm (h.length_le hg hf he.symm) (h.length_le hf hg he)
  exact (prefix_of_prefix_length_le hf hg hlen.le).eq_of_length hlen

/-- **Tamper evidence.** Lines of a log that are accepted are, from any point on, the log's next lines. -/
theorem NoCollision.scan_initial (h : NoCollision C d es) : ∀ {fs gs : List E}
    {ls : List (List α)}, es = fs ++ gs → (∀ l ∈ ls, l ∈ C.lines d es) → C.scan (C.chain d fs) ls ≠ none →
    ls <+: C.lines (C.chain d fs) gs
  | _, _, [], _, _, _ => nil_prefix
  | fs, gs, l :: ls, hes, hls, hs => by
    obtain ⟨fs', e, hp, rfl⟩ := mem_lines.1 (hls l (by simp))
    have hdec : C.dec (C.line (C.chain d fs') e) = some (e, C.link (C.chain d fs') e) := C.dec_enc _ _
    have hlink : C.link (C.chain d fs') e = C.link (C.chain d fs) e := by
      by_contra hne
      exact hs (scan_cons_bad hdec hne)
    have hfs : fs <+: es := hes ▸ prefix_append _ _
    have hfs' : fs' <+: es := (prefix_append _ _).trans hp
    have he : e ∈ es := hp.subset (by simp)
    obtain rfl := h.chain_inj hfs' hfs (h.link_inj hfs' hfs he he hlink)
    rw [hes, prefix_append_right_inj] at hp
    obtain ⟨gs', rfl⟩ := hp
    rw [singleton_append, lines, cons_prefix_cons]
    refine ⟨rfl, ?_⟩
    rw [← chain_snoc]
    refine h.scan_initial (by simpa using hes) (fun l hl => hls l (mem_cons_of_mem _ hl)) fun hnone => hs ?_
    rw [scan_cons_row hdec, ← chain_snoc, hnone]
    rfl

end Scan

end RowCodec

end ZClone.Lib
