import Mathlib.Algebra.Ring.Nat
import Mathlib.Data.List.Basic
import Mathlib.Data.List.DropRight

/-!
# Slash-separated paths

Go's `path` package on byte strings.

- `clean`, `join`, `dir`, `base` and `ext` are its functions.
- `reduce` is what `clean` does to the segments of a path; `Tidy` says what is left when it is done.
- `clean_render`, `join_append`, `dir_toPath` and `base_render` say what the functions do to a path given by its
  segments.
-/

namespace ZClone.Paths

open List

abbrev Text := List UInt8

/-- Under a name, so that all that looks for a text in a list uses the same proof. -/
instance instLawfulBEqText : LawfulBEq Text := inferInstance

/-- The text of ASCII characters. -/
def ascii (cs : List Char) : Text := cs.map fun c => .ofNat c.toNat

def slash : UInt8 := 0x2F

def dot : UInt8 := 0x2E

def dash : UInt8 := 0x2D

/-- The current directory. -/
def here : Text := [dot]

/-- The directory above. -/
def up : Text := [dot, dot]

def segments (p : Text) : List Text := p.splitOn slash

def render (xs : List Text) : Text := [slash].intercalate xs

/-- `strings.Trim(p, "/")`. -/
def trimSlashes (p : Text) : Text := (p.dropWhile (· = slash)).rdropWhile (· = slash)

/-- One more segment. -/
def push (rooted : Bool) (stack : List Text) (e : Text) : List Text :=
  if e = [] ∨ e = here then stack
  else if e = up then
    match stack.getLast? with
    | some last => if last = up then stack ++ [e] else stack.dropLast
    | none => if rooted then stack else stack ++ [e]
  else stack ++ [e]

def reduce (rooted : Bool) (xs : List Text) : List Text := xs.foldl (push rooted) []

/-- `path.Clean`. -/
def clean (p : Text) : Text :=
  let rooted := p.head? = some slash
  let out := (if rooted then [slash] else []) ++ render (reduce rooted (segments p))
  if out = [] then here else out

/-- `path.Join`. -/
def join (elems : List Text) : Text :=
  let rest := elems.dropWhile (· = [])
  if rest = [] then [] else clean (render rest)

/-- `path.Dir`. -/
def dir (p : Text) : Text := clean (p.rdropWhile (· ≠ slash))

/-- `path.Base`. -/
def base (p : Text) : Text :=
  if p = [] then here
  else
    let b := (p.rdropWhile (· = slash)).rtakeWhile (· ≠ slash)
    if b = [] then [slash] else b

/-- `path.Ext`. -/
def ext (p : Text) : Text :=
  let name := p.rtakeWhile (· ≠ slash)
  if dot ∈ name then dot :: name.rtakeWhile (· ≠ dot) else []

/-! ## Segments -/

/-- A segment: not empty and without slashes. -/
structure IsSegment (x : Text) : Prop where
  ne_nil : x ≠ []
  no_slash : slash ∉ x

/-- A segment that is a name. -/
structure IsName (x : Text) : Prop extends IsSegment x where
  ne_here : x ≠ here
  ne_up : x ≠ up

instance (x : Text) : Decidable (IsName x) :=
  decidable_of_iff ((x ≠ [] ∧ slash ∉ x) ∧ x ≠ here ∧ x ≠ up)
    ⟨fun h => ⟨⟨h.1.1, h.1.2⟩, h.2.1, h.2.2⟩, fun h => ⟨⟨h.ne_nil, h.no_slash⟩, h.ne_here, h.ne_up⟩⟩

theorem isSegment_up : IsSegment up := ⟨by decide, by decide⟩

theorem isSegment_here : IsSegment here := ⟨by decide, by decide⟩

variable {xs stack ys : List Text} {p : UInt8 → Bool} {x e b a y root : Text} {rooted : Bool}

theorem segments_render (hne : xs ≠ []) (h : ∀ x ∈ xs, slash ∉ x) : segments (render xs) = xs :=
  splitOn_intercalate slash h hne

theorem render_singleton (x : Text) : render [x] = x := by simp [render]

theorem render_segments (p : Text) : render (segments p) = p := intercalate_splitOn slash

theorem segments_of_notMem (hx : slash ∉ x) : segments x = [x] := by
  have hsegments := segments_render (cons_ne_nil x []) fun y hy => mem_singleton.mp hy ▸ hx
  rwa [render_singleton] at hsegments

theorem slash_notMem_segments (p : Text) : ∀ x ∈ segments p, slash ∉ x := by
  induction hlen : p.length using Nat.strong_induction_on generalizing p with
  | _ n ih =>
    by_cases hslash : slash ∈ p
    · obtain ⟨x, rest, rfl, hx⟩ := eq_append_cons_of_mem hslash
      rw [segments, splitOn_append_cons_self_of_not_mem hx]
      intro y hy
      obtain rfl | hy := mem_cons.mp hy
      · exact hx
      · refine ih rest.length ?_ rest rfl y hy
        rw [← hlen, length_append, length_cons]
        omega
    · rw [segments_of_notMem hslash]
      exact forall_mem_singleton.mpr hslash

theorem render_cons_cons (x y : Text) (xs : List Text) : render (x :: y :: xs) = x ++ slash :: render (y :: xs) := by
  simp [render, intercalate, intersperse]

theorem render_append (hxs : xs ≠ []) (hys : ys ≠ []) : render (xs ++ ys) = render xs ++ slash :: render ys := by
  induction xs with
  | nil => exact absurd rfl hxs
  | cons x xs ih =>
    cases xs with
    | nil =>
      obtain ⟨y, ys, rfl⟩ := exists_cons_of_ne_nil hys
      rw [singleton_append, render_cons_cons, render_singleton]
    | cons x' xs =>
      have ih' : render (x' :: (xs ++ ys)) = render (x' :: xs) ++ slash :: render ys := ih (cons_ne_nil _ _)
      rw [cons_append, cons_append, render_cons_cons, render_cons_cons, ih', append_assoc]
      rfl

theorem render_ne_nil (hne : xs ≠ []) (h : ∀ x ∈ xs, IsSegment x) : render xs ≠ [] := by
  intro hnil
  have hsegments := segments_render hne fun x hx => (h x hx).no_slash
  rw [hnil] at hsegments
  have hmem : [] ∈ xs := hsegments ▸ (by decide)
  exact (h [] hmem).ne_nil rfl

theorem count_render (h : ∀ x ∈ xs, slash ∉ x) : (render xs).count slash = xs.length - 1 := by
  induction xs with
  | nil => rfl
  | cons x xs ih =>
    have hx : x.count slash = 0 := count_eq_zero.mpr (h x mem_cons_self)
    cases xs with
    | nil => rw [render_singleton, hx]; rfl
    | cons x' xs =>
      have ih' := ih fun y hy => h y (mem_cons_of_mem x hy)
      rw [render_cons_cons, count_append, count_cons_self, ih', hx]
      simp

theorem head_render (h : ∀ x ∈ xs, IsSegment x) : (render xs).head? ≠ some slash := by
  cases xs with
  | nil => decide
  | cons x xs =>
    obtain ⟨b, x', rfl⟩ := exists_cons_of_ne_nil (h x mem_cons_self).ne_nil
    have hb : b ≠ slash := fun heq => (h _ mem_cons_self).no_slash (heq ▸ mem_cons_self)
    cases xs with
    | nil => simpa [render_singleton] using hb
    | cons y xs =>
      rw [render_cons_cons]
      simpa using hb

/-! ## Reducing -/

/-- Some steps up, then names. -/
def Tidy (xs : List Text) : Prop := ∃ n names, xs = List.replicate n up ++ names ∧ ∀ x ∈ names, IsName x

theorem Tidy.isSegment (h : Tidy xs) : ∀ x ∈ xs, IsSegment x := by
  obtain ⟨n, names, rfl, hnames⟩ := h
  intro x hx
  obtain hx | hx := mem_append.mp hx
  · rw [eq_of_mem_replicate hx]
    exact isSegment_up
  · exact (hnames x hx).toIsSegment

theorem tidy_nil : Tidy [] := ⟨0, [], rfl, nofun⟩

theorem tidy_names (h : ∀ x ∈ xs, IsName x) : Tidy xs := ⟨0, xs, rfl, h⟩

theorem Tidy.dropLast (h : Tidy xs) : Tidy xs.dropLast := by
  obtain ⟨n, names, rfl, hnames⟩ := h
  rcases eq_nil_or_concat' names with rfl | ⟨names, x, rfl⟩
  · refine ⟨n - 1, [], ?_, nofun⟩
    rw [append_nil, append_nil, dropLast_replicate]
  · refine ⟨n, names, ?_, fun y hy => hnames y (by simp [hy])⟩
    rw [← append_assoc, dropLast_concat]

/-- What one more segment can do: nothing, take one away, or be appended. -/
theorem push_cases (stack : List Text) (he : IsSegment e) : (e = here ∧ push false stack e = stack) ∨
      (e = up ∧ (∃ init last, stack = init ++ [last] ∧ last ≠ up ∧ push false stack e = init)) ∨
        (e ≠ here ∧ (e = up → ∀ init last, stack = init ++ [last] → last = up) ∧
          push false stack e = stack ++ [e]) := by
  rw [push]
  by_cases hhere : e = here
  · exact .inl ⟨hhere, if_pos (.inr hhere)⟩
  rw [if_neg (not_or.mpr ⟨he.ne_nil, hhere⟩)]
  by_cases hup : e = up
  · rw [if_pos hup]
    rcases eq_nil_or_concat' stack with rfl | ⟨init, last, rfl⟩
    · exact .inr (.inr ⟨hhere, fun _ init last h => absurd h (by simp), rfl⟩)
    · rw [getLast?_concat]
      by_cases hlast : last = up
      · refine .inr (.inr ⟨hhere, fun _ init' last' h => ?_, if_pos hlast⟩)
        obtain ⟨-, h⟩ := append_inj' h rfl
        cases h
        exact hlast
      · refine .inr (.inl ⟨hup, init, last, rfl, hlast, ?_⟩)
        exact (if_neg hlast).trans dropLast_concat
  · rw [if_neg hup]
    exact .inr (.inr ⟨hhere, fun h => absurd h hup, rfl⟩)

theorem tidy_push (h : Tidy stack) (he : IsSegment e) : Tidy (push false stack e) := by
  obtain ⟨-, heq⟩ | ⟨-, init, last, rfl, -, heq⟩ | ⟨hhere, hup, heq⟩ := push_cases stack he
  · rw [heq]
    exact h
  · rw [heq]
    simpa using h.dropLast
  · rw [heq]
    obtain ⟨n, names, rfl, hnames⟩ := h
    by_cases heup : e = up
    · -- a step up is appended to steps up only
      rcases eq_nil_or_concat' names with rfl | ⟨names, x, rfl⟩
      · refine ⟨n + 1, [], ?_, nofun⟩
        rw [append_nil, append_nil, heup, replicate_succ']
      · have hx := hup heup (replicate n up ++ names) x (by simp)
        exact absurd hx (hnames x (by simp)).ne_up
    · refine ⟨n, names ++ [e], by rw [append_assoc], fun x hx => ?_⟩
      obtain hx | hx := mem_append.mp hx
      · exact hnames x hx
      · rw [mem_singleton.mp hx]
        exact ⟨he, hhere, heup⟩

theorem tidy_reduce (h : ∀ x ∈ xs, IsSegment x) : Tidy (reduce false xs) := by
  suffices ∀ stack, Tidy stack → Tidy (xs.foldl (push false) stack) from this [] tidy_nil
  induction xs with
  | nil => exact fun stack hstack => hstack
  | cons x xs ih =>
    intro stack hstack
    exact ih (fun y hy => h y (mem_cons_of_mem x hy)) _ (tidy_push hstack (h x mem_cons_self))

/-- Reducing shortens a path or leaves it as it is. -/
theorem reduce_eq_or_lt (h : ∀ x ∈ xs, IsSegment x) : reduce false xs = xs ∨ (reduce false xs).length < xs.length := by
  suffices ∀ stack, xs.foldl (push false) stack = stack ++ xs ∨
      (xs.foldl (push false) stack).length < stack.length + xs.length by
    have hstart := this []
    rwa [nil_append, length_nil, Nat.zero_add] at hstart
  induction xs with
  | nil => exact fun stack => .inl (append_nil stack).symm
  | cons x xs ih =>
    intro stack
    have hrest := ih fun y hy => h y (mem_cons_of_mem x hy)
    rw [foldl_cons, length_cons]
    obtain ⟨-, heq⟩ | ⟨-, init, last, rfl, -, heq⟩ | ⟨-, -, heq⟩ := push_cases stack (h x mem_cons_self)
    · right
      rw [heq]
      rcases hrest stack with heq' | hlt
      · rw [heq', length_append]
        omega
      · omega
    · right
      rw [heq]
      rcases hrest init with heq' | hlt
      · rw [heq', length_append, length_append]
        omega
      · rw [length_append]
        omega
    · rw [heq]
      rcases hrest (stack ++ [x]) with heq' | hlt
      · left
        rw [heq', append_assoc]
        rfl
      · right
        rw [length_append, length_singleton] at hlt
        omega

theorem reduce_of_tidy (h : Tidy xs) : reduce false xs = xs := by
  obtain ⟨n, names, rfl, hnames⟩ := h
  have hups : ∀ n m, (replicate n up).foldl (push false) (replicate m up) = replicate (m + n) up := by
    intro n
    induction n with
    | zero => intro m; rfl
    | succ n ih =>
      intro m
      have hpush : push false (replicate m up) up = replicate (m + 1) up := by
        obtain ⟨hhere, -⟩ | ⟨-, init, last, heq, hlast, -⟩ | ⟨-, -, heq⟩ := push_cases (replicate m up) isSegment_up
        · exact absurd hhere (by decide)
        · have hmem : last ∈ replicate m up := heq ▸ by simp
          exact absurd (eq_of_mem_replicate hmem) hlast
        · rw [heq, replicate_succ']
      rw [replicate_succ, foldl_cons, hpush, ih (m + 1), Nat.add_assoc, Nat.add_comm 1 n]
  have happend : ∀ (names : List Text) (stack : List Text), (∀ x ∈ names, IsName x) →
      names.foldl (push false) stack = stack ++ names := by
    intro names
    induction names with
    | nil => exact fun stack _ => (append_nil stack).symm
    | cons x names ih =>
      intro stack hnames
      have hx := hnames x mem_cons_self
      obtain ⟨hhere, -⟩ | ⟨hup, -⟩ | ⟨-, -, heq⟩ := push_cases stack hx.toIsSegment
      · exact absurd hhere hx.ne_here
      · exact absurd hup hx.ne_up
      · rw [foldl_cons, heq, ih _ fun y hy => hnames y (mem_cons_of_mem x hy), append_assoc]
        rfl
  rw [reduce, foldl_append]
  have hfirst := hups n 0
  rw [Nat.zero_add] at hfirst
  change names.foldl (push false) ((replicate n up).foldl (push false) (replicate 0 up)) = _
  rw [hfirst, happend names _ hnames]

/-! ## Paths given by their segments -/

/-- The path with these segments; none are the current directory. -/
def toPath (xs : List Text) : Text := if xs = [] then here else render xs

theorem toPath_of_ne_nil (h : xs ≠ []) : toPath xs = render xs := if_neg h

theorem count_toPath (h : Tidy xs) : (toPath xs).count slash = xs.length - 1 := by
  by_cases hnil : xs = []
  · subst hnil
    rfl
  · rw [toPath_of_ne_nil hnil, count_render fun x hx => (h.isSegment x hx).no_slash]

theorem clean_render (hne : xs ≠ []) (h : ∀ x ∈ xs, IsSegment x) : clean (render xs) = toPath (reduce false xs) := by
  have hrooted : decide ((render xs).head? = some slash) = false := decide_eq_false (head_render h)
  rw [clean, segments_render hne fun x hx => (h x hx).no_slash, hrooted, if_neg (head_render h), nil_append, toPath]
  by_cases hnil : reduce false xs = []
  · rw [hnil]
    rfl
  · rw [if_neg hnil, if_neg (render_ne_nil hnil (tidy_reduce h).isSegment)]

/-- Empty elements before the others are left out. -/
theorem join_append {empties xs : List Text} (hempties : ∀ e ∈ empties, e = []) (hne : xs ≠ [])
    (h : ∀ x ∈ xs, IsSegment x) :
    join (empties ++ xs) = toPath (reduce false xs) := by
  obtain ⟨x, xs', rfl⟩ := exists_cons_of_ne_nil hne
  have hdrop : (empties ++ x :: xs').dropWhile (· = []) = x :: xs' := by
    rw [dropWhile_append_of_pos fun e he => by simpa using hempties e he, dropWhile_cons_of_neg]
    simpa using (h x mem_cons_self).ne_nil
  rw [join, hdrop]
  exact clean_render hne h

theorem render_concat (hne : xs ≠ []) (x : Text) : render (xs ++ [x]) = render xs ++ slash :: x := by
  rw [render_append hne (cons_ne_nil _ _), render_singleton]

theorem join_toPath (hxs : Tidy xs) {x : Text} (hx : IsSegment x) :
    join [toPath xs, x] = toPath (reduce false (xs ++ [x])) := by
  by_cases hnil : xs = []
  · subst hnil
    have hjoin := @join_append [] [here, x] nofun (cons_ne_nil _ _) (by simp [isSegment_here, hx])
    exact hjoin
  · have hsegments : ∀ y ∈ xs ++ [x], IsSegment y := by
      intro y hy
      obtain hy | hy := mem_append.mp hy
      · exact hxs.isSegment y hy
      · rw [mem_singleton.mp hy]
        exact hx
    have hne := render_ne_nil hnil hxs.isSegment
    have hdrop : [toPath xs, x].dropWhile (· = []) = [render xs, x] := by
      rw [toPath_of_ne_nil hnil, dropWhile_cons_of_neg (by simpa using hne)]
    rw [join, hdrop]
    have hrender : render [render xs, x] = render (xs ++ [x]) := by
      rw [render_concat hnil, show [render xs, x] = [render xs] ++ [x] from rfl, render_concat (cons_ne_nil _ _),
        render_singleton]
    change clean (render [render xs, x]) = _
    rw [hrender, clean_render (by simp) hsegments]

theorem rdropWhile_append (hb : ∀ c ∈ b, p c = true) {c : UInt8} (hc : p c = false) :
    (a ++ c :: b).rdropWhile p = a ++ [c] ∧ (a ++ c :: b).rtakeWhile p = b := by
  have hrev : (a ++ c :: b).reverse = b.reverse ++ c :: a.reverse := by simp
  have hall : ∀ d ∈ b.reverse, p d = true := fun d hd => hb d (mem_reverse.mp hd)
  constructor
  · rw [rdropWhile, hrev, dropWhile_append_of_pos hall, dropWhile_cons_of_neg (by simp [hc])]
    simp
  · rw [rtakeWhile, hrev, takeWhile_append_of_pos hall, takeWhile_cons_of_neg (by simp [hc])]
    simp

theorem rdropWhile_of_all (hb : ∀ c ∈ b, p c = true) : b.rdropWhile p = [] ∧ b.rtakeWhile p = b := by
  have hall : ∀ d ∈ b.reverse, p d = true := fun d hd => hb d (mem_reverse.mp hd)
  constructor
  · rw [rdropWhile, dropWhile_eq_nil_iff.mpr hall]
    rfl
  · rw [rtakeWhile, takeWhile_eq_self_iff.mpr hall, reverse_reverse]

theorem all_ne_slash (h : slash ∉ x) : ∀ c ∈ x, decide (c ≠ slash) = true :=
  fun _ hc => decide_eq_true fun heq => h (heq ▸ hc)

theorem clean_render_slash (hne : xs ≠ []) (h : Tidy xs) : clean (render xs ++ [slash]) = render xs := by
  have hhead : (render xs ++ [slash]).head? ≠ some slash := by
    rw [head?_append_of_ne_nil _ (render_ne_nil hne h.isSegment)]
    exact head_render h.isSegment
  have hsegments : segments (render xs ++ [slash]) = xs ++ [[]] := by
    rw [show render xs ++ [slash] = render (xs ++ [[]]) by rw [render_concat hne]]
    refine segments_render (by simp) fun x hx => ?_
    obtain hx | hx := mem_append.mp hx
    · exact (h.isSegment x hx).no_slash
    · rw [mem_singleton.mp hx]
      exact not_mem_nil
  have hreduce : reduce false (xs ++ [[]]) = xs := by
    rw [reduce, foldl_append]
    change push false (reduce false xs) [] = xs
    rw [reduce_of_tidy h, push, if_pos (.inl rfl)]
  rw [clean, hsegments, decide_eq_false hhead, if_neg hhead, nil_append, hreduce,
    if_neg (render_ne_nil hne h.isSegment)]

theorem dir_toPath (h : Tidy xs) : dir (toPath xs) = toPath xs.dropLast := by
  rcases eq_nil_or_concat' xs with rfl | ⟨init, x, rfl⟩
  · decide
  · have hx := h.isSegment x (by simp)
    have hinit : Tidy init := by simpa using h.dropLast
    rw [dropLast_concat, toPath_of_ne_nil (by simp), dir]
    by_cases hnil : init = []
    · subst hnil
      rw [nil_append, render_singleton, (rdropWhile_of_all (all_ne_slash hx.no_slash)).1]
      rfl
    · rw [render_concat hnil, (rdropWhile_append (all_ne_slash hx.no_slash) (by simp)).1, clean_render_slash hnil hinit,
        toPath_of_ne_nil hnil]

theorem base_render {init : List Text} (hx : IsSegment x) : base (render (init ++ [x])) = x := by
  have hlast : ∀ b ∈ x.getLast?, b ≠ slash := fun b hb heq => hx.no_slash (heq ▸ mem_of_getLast? hb)
  have hdrop : ∀ front : Text, (front ++ x).rdropWhile (· = slash) = front ++ x := by
    intro front
    obtain ⟨y, b, rfl⟩ := eq_nil_or_concat' x |>.resolve_left hx.ne_nil
    have hb : b ≠ slash := hlast b (by simp)
    rw [← append_assoc, rdropWhile_concat_neg _ _ _ (by simpa using hb)]
  have htake : (render (init ++ [x])).rtakeWhile (· ≠ slash) = x := by
    by_cases hnil : init = []
    · subst hnil
      rw [nil_append, render_singleton, (rdropWhile_of_all (all_ne_slash hx.no_slash)).2]
    · rw [render_concat hnil, (rdropWhile_append (all_ne_slash hx.no_slash) (by simp)).2]
  obtain ⟨front, hfront⟩ : ∃ front, render (init ++ [x]) = front ++ x := by
    by_cases hnil : init = []
    · subst hnil
      exact ⟨[], by rw [nil_append, render_singleton, nil_append]⟩
    · exact ⟨render init ++ [slash], by rw [render_concat hnil]; simp⟩
  have hne : render (init ++ [x]) ≠ [] := by
    rw [hfront]
    exact fun h => hx.ne_nil (append_eq_nil_iff.mp h).2
  rw [base, if_neg hne, hfront, hdrop, ← hfront, htake]
  exact if_neg hx.ne_nil

/-! ## Extensions -/

theorem ext_of_notMem (hslash : slash ∉ x) (hdot : dot ∉ x) : ext x = [] := by
  rw [ext, (rdropWhile_of_all (all_ne_slash hslash)).2]
  exact if_neg hdot

theorem ext_append (hslash : slash ∉ b ++ dot :: e) (hdot : dot ∉ e) : ext (b ++ dot :: e) = dot :: e := by
  have hall : ∀ c ∈ e, decide (c ≠ dot) = true := fun c hc => decide_eq_true (fun h => hdot (h ▸ hc))
  rw [ext, (rdropWhile_of_all (all_ne_slash hslash)).2, if_pos (mem_append_right _ mem_cons_self),
    (rdropWhile_append hall (by decide)).2]

theorem last_cases (c : UInt8) (x : Text) : c ∉ x ∨ ∃ b e, x = b ++ c :: e ∧ c ∉ e := by
  by_cases h : c ∈ x
  · obtain ⟨e, b, hx, hc⟩ := eq_append_cons_of_mem (mem_reverse.mpr h)
    refine .inr ⟨b.reverse, e.reverse, ?_, by rwa [mem_reverse]⟩
    rw [← reverse_reverse x, hx]
    simp
  · exact .inl h

theorem ext_suffix (p : Text) : ext p <:+ p := by
  rw [ext]
  obtain hdot | ⟨b, e, hname, hdot⟩ := last_cases dot (p.rtakeWhile (· ≠ slash))
  · rw [if_neg hdot]
    exact nil_suffix
  · have hall : ∀ c ∈ e, decide (c ≠ dot) = true := fun c hc => decide_eq_true (fun h => hdot (h ▸ hc))
    have hsuffix : b ++ dot :: e <:+ p := hname ▸ rtakeWhile_suffix _ p
    rw [hname, if_pos (mem_append_right _ mem_cons_self), (rdropWhile_append hall (by decide)).2]
    exact (suffix_append b (dot :: e)).trans hsuffix

/-! ## Canonical paths -/

theorem push_of_isName (rooted : Bool) (stack : List Text) (he : IsName e) : push rooted stack e = stack ++ [e] := by
  rw [push, if_neg (not_or.mpr ⟨he.ne_nil, he.ne_here⟩), if_neg he.ne_up]

theorem foldl_push_names (rooted : Bool) (h : ∀ x ∈ xs, IsName x) (stack : List Text) :
    xs.foldl (push rooted) stack = stack ++ xs := by
  induction xs generalizing stack with
  | nil => exact (append_nil stack).symm
  | cons x xs ih =>
    rw [foldl_cons, push_of_isName rooted stack (h x mem_cons_self),
      ih (fun y hy => h y (mem_cons_of_mem x hy)), append_assoc, singleton_append]

/-- Empty segments make no difference. -/
theorem foldl_push_filter (rooted : Bool) (xs stack : List Text) :
    xs.foldl (push rooted) stack = (xs.filter (· ≠ [])).foldl (push rooted) stack := by
  induction xs generalizing stack with
  | nil => rfl
  | cons x xs ih =>
    by_cases hx : x = []
    · rw [foldl_cons, ih, push, if_pos (.inl hx), filter_cons_of_neg (by simp [hx])]
    · rw [foldl_cons, ih, filter_cons_of_pos (by simp [hx]), foldl_cons]

theorem isSegment_filter (h : ∀ x ∈ xs, slash ∉ x) : ∀ x ∈ xs.filter (· ≠ []), IsSegment x := by
  intro x hx
  obtain ⟨hmem, hne⟩ := mem_filter.mp hx
  exact ⟨of_decide_eq_true hne, h x hmem⟩

/-- Below the root nothing but names is left. -/
theorem isName_reduce (h : ∀ x ∈ xs, slash ∉ x) : ∀ y ∈ reduce true xs, IsName y := by
  suffices ∀ stack : List Text, (∀ y ∈ stack, IsName y) → ∀ y ∈ xs.foldl (push true) stack, IsName y from
    this [] nofun
  induction xs with
  | nil => exact fun stack hstack => hstack
  | cons x xs ih =>
    intro stack hstack
    apply ih fun y hy => h y (mem_cons_of_mem x hy)
    simp only [push, if_true]
    split_ifs with hempty hup
    · exact hstack
    · split
      · rename_i last hlast
        rw [if_neg (hstack last (mem_of_getLast? hlast)).ne_up]
        exact fun y hy => hstack y (dropLast_subset _ hy)
      · exact hstack
    · intro y hy
      rcases mem_append.mp hy with hy | hy
      · exact hstack y hy
      · rw [mem_singleton.mp hy]
        obtain ⟨hnil, hhere⟩ := not_or.mp hempty
        exact ⟨⟨hnil, h x mem_cons_self⟩, hhere, hup⟩

theorem segments_slash_cons (p : Text) : segments (slash :: p) = [] :: segments p := by
  have happend := @List.splitOn_append_cons_self _ _ _ slash [] p
  rwa [splitOn_nil] at happend

theorem segments_append (p q : Text) : segments (p ++ slash :: q) = segments p ++ segments q :=
  splitOn_append_cons_self p q

theorem clean_slash_cons (p : Text) : clean (slash :: p) = slash :: render (reduce true (segments p)) := by
  rw [clean]
  rw [if_neg (by simp)]
  rfl

/-! ## Cleaned paths -/

/-- The segments of a path when it is cleaned. -/
def cleaned (p : Text) : List Text := reduce (p.head? = some slash) (segments p)

/-- Equal to the root or below it, once both are cleaned. -/
def Below (root p : Text) : Prop :=
  (p.head? = some slash ↔ root.head? = some slash) ∧ ∃ names, (∀ x ∈ names, IsName x) ∧
    cleaned p = cleaned root ++ names

theorem Below.refl (p : Text) : Below p p := ⟨Iff.rfl, [], nofun, (append_nil _).symm⟩

theorem tidy_cleaned {p : Text} (h : p.head? ≠ some slash) : Tidy (cleaned p) := by
  rw [cleaned, decide_eq_false h, reduce, foldl_push_filter]
  exact tidy_reduce (isSegment_filter (slash_notMem_segments p))

theorem cleaned_slash_cons (p : Text) : cleaned (slash :: p) = reduce true (segments p) := by
  rw [cleaned, segments_slash_cons]
  rfl

theorem clean_ne_nil (p : Text) : clean p ≠ [] := by
  rw [clean]
  split
  · simp
  · split
    · exact cons_ne_nil _ _
    · assumption

/-- To clean a path again changes nothing. -/
theorem cleaned_clean (p : Text) :
    ((clean p).head? = some slash ↔ p.head? = some slash) ∧ cleaned (clean p) = cleaned p := by
  by_cases hrooted : p.head? = some slash
  · obtain ⟨p, rfl⟩ := head?_eq_some_iff.mp hrooted
    have hnames := isName_reduce (slash_notMem_segments p)
    rw [clean_slash_cons, cleaned_slash_cons, cleaned_slash_cons]
    refine ⟨iff_of_true rfl rfl, ?_⟩
    by_cases hnil : reduce true (segments p) = []
    · rw [hnil]
      rfl
    · rw [segments_render hnil fun x hx => (hnames x hx).no_slash, reduce, foldl_push_names true hnames, nil_append]
  · have htidy := tidy_cleaned hrooted
    have hclean : clean p = toPath (cleaned p) := by
      rw [clean, if_neg hrooted, nil_append]
      change (if render (cleaned p) = [] then here else render (cleaned p)) = if cleaned p = [] then here
        else render (cleaned p)
      by_cases hnil : cleaned p = []
      · rw [hnil]
        rfl
      · rw [if_neg hnil, if_neg (render_ne_nil hnil htidy.isSegment)]
    rw [hclean]
    generalize cleaned p = ys at htidy
    by_cases hnil : ys = []
    · rw [hnil]
      exact ⟨iff_of_false (by decide) hrooted, by decide⟩
    · have hhead := head_render htidy.isSegment
      rw [toPath_of_ne_nil hnil]
      refine ⟨iff_of_false hhead hrooted, ?_⟩
      rw [cleaned, decide_eq_false hhead, segments_render hnil fun x hx => (htidy.isSegment x hx).no_slash,
        reduce_of_tidy htidy]

theorem mem_render {b : UInt8} (hb : b ≠ slash) : b ∈ render xs ↔ ∃ x ∈ xs, b ∈ x := by
  induction xs with
  | nil => simp [render]
  | cons x xs ih =>
    cases xs with
    | nil => simp [render_singleton]
    | cons y ys =>
      rw [render_cons_cons, mem_append, mem_cons, ih]
      simp [hb]

theorem mem_of_mem_push (h : y ∈ push rooted stack x) : y ∈ stack ∨ y = x := by
  rw [push] at h
  split at h
  · exact .inl h
  · split at h
    · split at h
      · split at h
        · simpa using h
        · exact .inl (dropLast_subset _ h)
      · split at h
        · exact .inl h
        · simpa using h
    · simpa using h

theorem mem_of_mem_reduce (h : y ∈ reduce rooted xs) : y ∈ xs := by
  suffices ∀ stack : List Text, y ∈ xs.foldl (push rooted) stack → y ∈ stack ∨
    y ∈ xs from (this [] h).resolve_left (by simp)
  clear h
  induction xs with
  | nil => exact fun stack h => .inl h
  | cons x xs ih =>
    intro stack h
    rcases ih _ h with h | h
    · exact (mem_of_mem_push h).imp_right fun heq => mem_cons.mpr (.inl heq)
    · exact .inr (mem_cons_of_mem x h)

/-- Cleaning adds no bytes but slashes and the dot. -/
theorem mem_of_mem_clean {b : UInt8} {p : Text} (hslash : b ≠ slash) (hdot : b ≠ dot) (h : b ∈ clean p) : b ∈ p := by
  have hrender : b ∈ render (reduce (p.head? = some slash) (segments p)) := by
    rw [clean] at h
    split at h
    · simpa [hslash] using h
    · split at h
      · simp [here, hdot] at h
      · exact h
  obtain ⟨y, hy, hb⟩ := (mem_render hslash).mp hrender
  rw [← render_segments p]
  exact (mem_render hslash).mpr ⟨y, mem_of_mem_reduce hy, hb⟩

/-- What is joined to a root is below it, if it has no steps up and no empty root makes it absolute. -/
theorem below_join {p : Text} (hnames : ∀ x ∈ (segments p).filter (· ≠ []), IsName x)
    (hroot : root = [] → p.head? ≠ some slash) :
    Below root (join [root, p]) := by
  have hfold : ∀ rooted stack, (segments p).foldl (push rooted) stack = stack ++ (segments p).filter (· ≠ []) := by
    intro rooted stack
    rw [foldl_push_filter, foldl_push_names rooted hnames]
  by_cases hnil : root = []
  · subst hnil
    by_cases hp : p = []
    · subst hp
      exact .refl []
    · have hjoin : join [[], p] = clean p := by simp [join, hp, render_singleton]
      obtain ⟨hhead, hclean⟩ := cleaned_clean p
      rw [hjoin]
      refine ⟨hhead.trans (iff_of_false (hroot rfl) (by decide)), _, hnames, ?_⟩
      rw [hclean, cleaned, reduce, hfold]
      rfl
  · have hjoin : join [root, p] = clean (root ++ slash :: p) := by simp [join, hnil, render]
    obtain ⟨hhead, hclean⟩ := cleaned_clean (root ++ slash :: p)
    rw [head?_append_of_ne_nil _ hnil] at hhead
    rw [hjoin]
    refine ⟨hhead, _, hnames, ?_⟩
    rw [hclean, cleaned, head?_append_of_ne_nil _ hnil, segments_append, reduce, foldl_append, hfold]
    rfl

theorem join_slash_cons (h : root ≠ []) (p : Text) : join [root, slash :: p] = join [root, p] := by
  have hjoin : ∀ q, join [root, q] = clean (root ++ slash :: q) := fun q => by simp [join, h, render]
  rw [hjoin, hjoin, clean, clean, head?_append_of_ne_nil _ h, head?_append_of_ne_nil _ h, segments_append,
    segments_append, segments_slash_cons, reduce, reduce, foldl_append, foldl_append]
  rfl

theorem render_injective (hxs : ∀ x ∈ xs, IsSegment x) (hys : ∀ y ∈ ys, IsSegment y) (h : render xs = render ys) :
    xs = ys := by
  by_cases hx : xs = []
  · by_contra hne
    have hy : ys ≠ [] := fun hy => hne (hx.trans hy.symm)
    rw [hx] at h
    exact render_ne_nil hy hys h.symm
  · have hy : ys ≠ [] := by
      intro hy
      rw [hy] at h
      exact render_ne_nil hx hxs h
    rw [← segments_render hx fun x hx => (hxs x hx).no_slash, h, segments_render hy fun y hy => (hys y hy).no_slash]

/-! ## How long a cleaned path is -/

/-- The bytes of the segments, and one for the slash after each. -/
def weight (xs : List Text) : Nat := (xs.map fun x => x.length + 1).sum

theorem weight_append (xs ys : List Text) : weight (xs ++ ys) = weight xs + weight ys := by
  simp [weight]

theorem length_render (hne : xs ≠ []) : (render xs).length + 1 = weight xs := by
  induction xs using reverseRecOn with
  | nil => exact absurd rfl hne
  | append_singleton xs x ih =>
    by_cases hxs : xs = []
    · simp [hxs, render_singleton, weight]
    · rw [render_concat hxs, length_append, length_cons, weight_append, ← ih hxs]
      simp [weight]
      omega

theorem weight_push (rooted : Bool) (stack : List Text) (e : Text) :
    weight (push rooted stack e) ≤ weight stack + weight [e] := by
  have hdropLast : weight stack.dropLast ≤ weight stack := by
    rcases eq_nil_or_concat' stack with rfl | ⟨init, last, rfl⟩
    · exact le_rfl
    · rw [dropLast_concat, weight_append]
      exact Nat.le_add_right _ _
  have hcases : push rooted stack e = stack ∨ push rooted stack e = stack.dropLast ∨
      push rooted stack e = stack ++ [e] := by
    unfold push
    split_ifs <;> (try split) <;> (try split_ifs) <;> simp
  rcases hcases with h | h | h
  · rw [h]
    exact Nat.le_add_right _ _
  · rw [h]
    exact hdropLast.trans (Nat.le_add_right _ _)
  · rw [h, weight_append]

theorem weight_filter (keep : Text → Bool) (xs : List Text) : weight (xs.filter keep) ≤ weight xs := by
  induction xs with
  | nil => exact le_rfl
  | cons x xs ih =>
    rw [filter_cons]
    split_ifs
    · exact Nat.add_le_add_left ih _
    · exact ih.trans (Nat.le_add_left _ _)

theorem weight_reduce (rooted : Bool) (xs : List Text) : weight (reduce rooted xs) ≤ weight (xs.filter (· ≠ [])) := by
  rw [reduce, foldl_push_filter]
  suffices ∀ (ys stack : List Text), weight (ys.foldl (push rooted) stack) ≤ weight stack + weight ys from
    (this _ []).trans (Nat.zero_add _).le
  intro ys
  induction ys with
  | nil => exact fun _ => le_rfl
  | cons y ys ih =>
    intro stack
    have hpush := weight_push rooted stack y
    have hcons : weight (y :: ys) = weight [y] + weight ys := weight_append [y] ys
    rw [foldl_cons]
    exact (ih _).trans (by omega)

theorem length_render_reduce (rooted : Bool) (a : Text) :
    (render (reduce rooted (segments (a ++ [slash])))).length ≤ a.length := by
  have hfilter : (segments (a ++ [slash])).filter (· ≠ []) = (segments a).filter (· ≠ []) := by
    rw [segments_append a []]
    simp [segments]
  have hreduce := weight_reduce rooted (segments (a ++ [slash]))
  rw [hfilter] at hreduce
  have hsegments := length_render (show segments a ≠ [] from splitOn_ne_nil _ _)
  rw [render_segments] at hsegments
  by_cases hnil : reduce rooted (segments (a ++ [slash])) = []
  · simp [hnil, render]
  · have hlength := length_render hnil
    have hall := hreduce.trans (weight_filter _ _)
    omega

/-- Cleaning shortens a path with a slash at its end. -/
theorem length_clean_slash (ha : a ≠ []) : (clean (a ++ [slash])).length < (a ++ [slash]).length := by
  obtain ⟨c, a', rfl⟩ := exists_cons_of_ne_nil ha
  by_cases hc : c = slash
  · subst hc
    have hle := length_render_reduce true a'
    rw [cons_append, clean_slash_cons]
    simp only [length_cons, length_append, length_nil]
    omega
  · have hle := length_render_reduce false (c :: a')
    have hrooted : ¬((c :: a') ++ [slash]).head? = some slash := fun h => hc (Option.some.inj h)
    rw [clean]
    simp only [hrooted, if_false, decide_false, nil_append]
    split_ifs
    · simp [here]
    · rw [length_append, length_singleton]
      omega

/-- The directory of a path is shorter than the path, if it is not the root itself. -/
theorem length_dir {p : Text} (hp : p ≠ [slash]) : dir p = here ∨ (dir p).length < p.length := by
  rcases last_cases slash p with hno | ⟨a, b, rfl, hb⟩
  · rw [dir, (rdropWhile_of_all (all_ne_slash hno)).1]
    exact .inl rfl
  · right
    rw [dir, (rdropWhile_append (all_ne_slash hb) (by decide)).1, length_append, length_cons]
    by_cases ha : a = []
    · subst ha
      have hclean : clean ([] ++ [slash]) = [slash] := by decide
      have hpos : b ≠ [] := by
        rintro rfl
        exact hp rfl
      rw [hclean]
      simpa using length_pos_of_ne_nil hpos
    · have hlt := length_clean_slash ha
      rw [length_append, length_singleton] at hlt
      omega

end ZClone.Paths
