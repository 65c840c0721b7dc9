import ZClone.March.MatchListings

/-!
# The callbacks on sorted listings

With both channels sorted by key, the loop keeps this: what it will still call back for is the join of what is left of
the two listings, each stripped of the duplicates of the entry it dealt with last.

- `Holds` and `Loaded` relate a cursor and its channel to what is left of a listing, before and after a reload.
- `Loaded.order` and `Loaded.done` are the checks and the `done` functions in those terms.
- `Listings.Holds.turn` says what one turn does, `loop_eq` what the loop does.
- `matchListings_eq` is the result for whole listings, **`matchListings_callbacks`** the same key by key.
-/

namespace ZClone.March

open Merge List

/-- The rows of a join as callbacks. -/
def Callback.ofRow : Row Entry Entry → Callback
  | .left src => .srcOnly src
  | .right dst => .dstOnly (some dst)
  | .both src dst => .matched dst src

/-! ## Cursors over a listing -/

/-- The cursor and its channel have `rest` left to deliver, nil entries included; `prev` is the key of the entry dealt
with last. -/
structure Cursor.Holds (key : Option Entry → Name) (c : Cursor) (chan : List (Option Entry)) (prev : Option Name)
    (rest : List (Option Entry)) : Prop where
  rest : c.entry.toList.map some ++ chan = rest
  held : ∀ e, c.entry = some e → c.name = key (some e) ∧ c.hasMore = true
  prev : c.prev.map (fun p => key (some p)) = prev
  prevName : ∀ p, c.prev = some p → c.prevName = key (some p)

/-- The same after a reload: the cursor has the first of the rest, if there is one. -/
structure Cursor.Loaded (key : Option Entry → Name) (c : Cursor) (chan : List (Option Entry)) (prev : Option Name)
    (rest : List (Option Entry)) : Prop where
  chan : chan = rest.tail
  entry : c.entry = rest.head?.join
  name : c.name = key rest.head?.join
  hasMore : c.hasMore = !rest.isEmpty
  prev : c.prev.map (fun p => key (some p)) = prev
  prevName : ∀ p, c.prev = some p → c.prevName = key (some p)

variable {e dst : Entry} {m : March} {dsts : Listing m.dstKey} {prev : Option Name}

namespace Cursor

variable {key : Option Entry → Name} {c : Cursor} {chan rest : List (Option Entry)} {prev : Option Name}

theorem Holds.reload (h : c.Holds key chan prev rest) :
    (c.reload key chan).1.Loaded key (c.reload key chan).2 prev rest := by
  obtain ⟨rfl, hheld, hprev, hprevName⟩ := h
  unfold Cursor.reload
  rcases hc : c.entry with _ | e
  · rcases chan with _ | ⟨e, chan⟩ <;> exact ⟨rfl, rfl, rfl, rfl, hprev, hprevName⟩
  · obtain ⟨hname, hmore⟩ := hheld e hc
    exact ⟨rfl, hc, hname, hmore, hprev, hprevName⟩

/-- A loaded entry that is not dealt with stays. -/
theorem Loaded.holds (h : c.Loaded key chan prev rest) (hnil : rest.head? ≠ some none) :
    c.Holds key chan prev rest where
  rest := by
    rw [h.chan, h.entry]
    rcases rest with _ | ⟨_ | e, rest⟩
    · rfl
    · exact absurd rfl hnil
    · rfl
  held := by
    intro e he
    have hhead := h.entry.symm.trans he
    refine ⟨hhead ▸ h.name, ?_⟩
    rw [h.hasMore]
    cases rest with
    | nil => cases hhead
    | cons _ _ => rfl
  prev := h.prev
  prevName := h.prevName

/-- A nil entry is gone once it was read. -/
theorem Loaded.holds_of_nil (h : c.Loaded key chan prev (none :: rest)) : c.Holds key chan prev rest where
  rest := by
    rw [h.chan, h.entry]
    rfl
  held := fun e he => absurd (h.entry.symm.trans he) (by simp)
  prev := h.prev
  prevName := h.prevName

theorem Loaded.done (h : c.Loaded key chan prev (some e :: rest)) :
    c.done.Holds key chan (some (key (some e))) rest where
  rest := by simpa [Cursor.done] using h.chan
  held := by simp [Cursor.done]
  prev := by simp [Cursor.done, h.entry]
  prevName := by
    intro p hp
    obtain rfl : e = p := by simpa [Cursor.done, h.entry] using hp
    exact h.name

theorem Loaded.order_of_nil (h : c.Loaded key chan prev rest) (hnil : rest.head?.join = none) : c.order = .fresh := by
  simp [Cursor.order, h.entry, hnil]

/-- The checks find a duplicate exactly where the key repeats, if the keys are in order. -/
theorem Loaded.order (h : c.Loaded key chan prev (some e :: rest))
    (htype : ∀ e e', key (some e) = key (some e') → e.isDirectory = e'.isDirectory)
    (hle : ∀ k ∈ prev, k ≤ key (some e)) :
    c.order = if prev = some (key (some e)) then .duplicate else .fresh := by
  have hentry : c.entry = some e := h.entry
  have hname : c.name = key (some e) := h.name
  have hprev := h.prev
  rcases hp : c.prev with _ | p
  · simp [Cursor.order, hentry, hp, ← hprev]
  · have hle : key (some p) ≤ key (some e) := hle _ (by simp [← hprev, hp])
    simp only [Cursor.order, hentry, hp, ← hprev, Option.map_some, Option.some.injEq, hname, h.prevName p hp,
      not_lt.mpr hle, if_false]
    by_cases heq : key (some p) = key (some e)
    · have hdir := htype p e heq
      simp [heq, dirEntryType, hdir]
    · simp [heq, Ne.symm heq]

end Cursor

/-! ## One turn -/

section

variable (m : March)

/-- The callbacks still to come when `srcs` and `dsts` are left. -/
def toCome (sp dp : Option Name) (srcs dsts : List Entry) : List Callback :=
  (join (fun e => m.srcKey (some e)) (fun e => m.dstKey (some e)) m.noProcessDstOnly
    (firsts (fun e => m.srcKey (some e)) sp srcs) (firsts (fun e => m.dstKey (some e)) dp dsts)).map Callback.ofRow

/-- One side's rest is sorted and not below the key dealt with last. -/
def InOrder (key : Option Entry → Name) (prev : Option Name) (rest : List Entry) : Prop :=
  rest.Pairwise (fun e e' => key (some e) ≤ key (some e')) ∧ ∀ k ∈ prev, ∀ e ∈ rest, k ≤ key (some e)

structure Listings.Holds (s : Listings) (sp dp : Option Name) (srcs dsts : List Entry) : Prop where
  src : s.src.Holds m.srcKey s.srcChan sp (srcs.map some)
  dst : s.dst.Holds m.dstKey s.dstChan dp (dsts.map some)
  srcInOrder : InOrder m.srcKey sp srcs
  dstInOrder : InOrder m.dstKey dp dsts

structure Listings.Loaded (s : Listings) (sp dp : Option Name) (srcs dsts : List Entry) : Prop where
  src : s.src.Loaded m.srcKey s.srcChan sp (srcs.map some)
  dst : s.dst.Loaded m.dstKey s.dstChan dp (dsts.map some)
  srcInOrder : InOrder m.srcKey sp srcs
  dstInOrder : InOrder m.dstKey dp dsts

end

section

variable {key : Option Entry → Name} {rest : List Entry} (h : InOrder key prev (e :: rest))

include h

theorem InOrder.head : ∀ k ∈ prev, k ≤ key (some e) :=
  fun k hk => h.2 k hk e mem_cons_self

theorem InOrder.tail : InOrder key (some (key (some e))) rest :=
  ⟨(pairwise_cons.mp h.1).2, by simpa using (pairwise_cons.mp h.1).1⟩

end

theorem head?_map_some_ne (es : List Entry) : (es.map some).head? ≠ some none := by
  cases es <;> simp

theorem srcKey_isDirectory (m : March) (e e' : Entry) (h : m.srcKey (some e) = m.srcKey (some e')) :
    e.isDirectory = e'.isDirectory :=
  srcOrDstKey_isDirectory h

theorem dstKey_isDirectory (m : March) (e e' : Entry) (h : m.dstKey (some e) = m.dstKey (some e')) :
    e.isDirectory = e'.isDirectory :=
  srcOrDstKey_isDirectory h

section

variable {m : March} {s : Listings} {sp dp : Option Name} {srcs dsts : List Entry} {src : Entry}

theorem Listings.Loaded.srcDone (h : s.Loaded m sp dp (src :: srcs) dsts) :
    s.srcDone.Holds m (some (m.srcKey (some src))) dp srcs dsts :=
  ⟨h.src.done, h.dst.holds (head?_map_some_ne dsts), h.srcInOrder.tail, h.dstInOrder⟩

theorem Listings.Loaded.dstDone (h : s.Loaded m sp dp srcs (dst :: dsts)) :
    s.dstDone.Holds m sp (some (m.dstKey (some dst))) srcs dsts :=
  ⟨h.src.holds (head?_map_some_ne srcs), h.dst.done, h.srcInOrder, h.dstInOrder.tail⟩

/-- What a turn did that goes on: the callbacks it made and those to come are those that were to come. -/
def Advances (m : March) (t : Turn) (coming : List Callback) : Prop :=
  ∃ s' made sp' dp' srcs' dsts', t = .next s' made ∧ s'.Holds m sp' dp' srcs' dsts' ∧
    coming = made ++ toCome m sp' dp' srcs' dsts'

/-- The `switch` on two entries that are no duplicates. -/
theorem Listings.Loaded.select_both (h : s.Loaded m sp dp (src :: srcs) (dst :: dsts))
    (hsrc : sp ≠ some (m.srcKey (some src))) (hdst : dp ≠ some (m.dstKey (some dst))) :
    Advances m s.select (toCome m sp dp (src :: srcs) (dst :: dsts)) := by
  have hsn : s.src.name = m.srcKey (some src) := h.src.name
  have hdn : s.dst.name = m.dstKey (some dst) := h.dst.name
  have hcome : ∀ l, toCome m sp dp (src :: srcs) (dst :: dsts) = l ↔ (join (fun e => m.srcKey (some e))
      (fun e => m.dstKey (some e)) m.noProcessDstOnly
      (src :: firsts (fun e => m.srcKey (some e)) (some (m.srcKey (some src))) srcs)
      (dst :: firsts (fun e => m.dstKey (some e)) (some (m.dstKey (some dst))) dsts)).map Callback.ofRow = l := by
    intro l
    rw [toCome, firsts_cons_of_ne srcs hsrc, firsts_cons_of_ne dsts hdst]
  rw [Listings.select, h.src.entry, h.dst.entry]
  simp only [hsn, hdn]
  rcases lt_trichotomy (m.srcKey (some src)) (m.dstKey (some dst)) with hlt | heq | hgt
  · refine ⟨s.srcDone, [.srcOnly src], _, _, _, _, ?_, h.srcDone, ?_⟩
    · simp [hlt, hlt.not_gt, hlt.ne]
    · rw [hcome, join, if_pos hlt, toCome, firsts_cons_of_ne dsts hdst]
      rfl
  · -- equal keys are keys of one type, so the pair matches
    have hdir : src.isDirectory = dst.isDirectory := srcOrDstKey_isDirectory heq
    refine ⟨s.dstDone.srcDone, [.matched dst src], _, _, _, _, ?_,
      ⟨h.src.done, h.dst.done, h.srcInOrder.tail, h.dstInOrder.tail⟩, ?_⟩
    · simp [heq, dirEntryType, hdir]
    · rw [hcome, join, if_neg heq.not_lt, if_neg heq.not_gt]
      rfl
  · refine ⟨s.dstDone, [.dstOnly (some dst)], _, _, _, _, ?_, h.dstDone, ?_⟩
    · simp [hgt]
    · rw [hcome, join, if_neg hgt.not_gt, if_pos hgt, toCome, firsts_cons_of_ne srcs hsrc]
      rfl

/-- The body from the checks on, when one of the listings has something left. -/
theorem Listings.Loaded.inspect (h : s.Loaded m sp dp srcs dsts) (hstop : srcs = [] → m.noProcessDstOnly = false)
    (hleft : srcs ≠ [] ∨ dsts ≠ []) : Advances m s.inspect (toCome m sp dp srcs dsts) := by
  unfold Listings.inspect
  rcases srcs with _ | ⟨src, srcs⟩
  · rw [h.src.order_of_nil rfl]
    rcases dsts with _ | ⟨dst, dsts⟩
    · simp at hleft
    rw [h.dst.order (dstKey_isDirectory m) h.dstInOrder.head]
    by_cases hdup : dp = some (m.dstKey (some dst))
    · refine ⟨s.dstDone, [], _, _, _, _, by simp [hdup], h.dstDone, ?_⟩
      rw [toCome, firsts_cons_of_eq dsts hdup, ← hdup]
      rfl
    · refine ⟨s.dstDone, [.dstOnly (some dst)], _, _, _, _, ?_, h.dstDone, ?_⟩
      · simp [hdup, Listings.select, h.src.entry, h.dst.entry]
      · rw [toCome, firsts_cons_of_ne dsts hdup]
        simp [toCome, firsts, join, hstop rfl, Callback.ofRow]
  · rw [h.src.order (srcKey_isDirectory m) h.srcInOrder.head]
    by_cases hdup : sp = some (m.srcKey (some src))
    · refine ⟨s.srcDone, [], _, _, _, _, by simp [hdup], h.srcDone, ?_⟩
      rw [toCome, firsts_cons_of_eq srcs hdup, ← hdup]
      rfl
    rcases dsts with _ | ⟨dst, dsts⟩
    · rw [h.dst.order_of_nil rfl]
      refine ⟨s.srcDone, [.srcOnly src], _, _, _, _, ?_, h.srcDone, ?_⟩
      · simp [hdup, Listings.select, h.src.entry, h.dst.entry]
      · rw [toCome, firsts_cons_of_ne srcs hdup]
        simp [toCome, firsts, join, Callback.ofRow]
    rw [h.dst.order (dstKey_isDirectory m) h.dstInOrder.head]
    by_cases hdup' : dp = some (m.dstKey (some dst))
    · refine ⟨s.dstDone, [], _, _, _, _, by simp [hdup, hdup'], h.dstDone, ?_⟩
      rw [toCome, firsts_cons_of_eq dsts hdup', ← hdup']
      rfl
    · simpa [hdup, hdup'] using h.select_both hdup hdup'

/-- One turn: it ends with nothing to come, or goes on. -/
theorem Listings.Holds.turn (h : s.Holds m sp dp srcs dsts) :
    (s.turn m = .finished m.noProcessDstOnly ∧ toCome m sp dp srcs dsts = []) ∨
      Advances m (s.turn m) (toCome m sp dp srcs dsts) := by
  have hsrc := h.src.reload
  have hdst := h.dst.reload
  have hloaded : (s.reload m).Loaded m sp dp srcs dsts := ⟨hsrc, hdst, h.srcInOrder, h.dstInOrder⟩
  have hmore : (s.reloadSrc m).src.hasMore = !(srcs.map some).isEmpty := hsrc.hasMore
  unfold Listings.turn Listings.afterSrc
  by_cases hstop : srcs = [] ∧ m.noProcessDstOnly = true
  · refine .inl ⟨by simp [hmore, hstop], ?_⟩
    simp [toCome, hstop, firsts, join]
  have hstop' : srcs = [] → m.noProcessDstOnly = false := by simpa using hstop
  rw [if_neg (by simpa [hmore] using hstop)]
  unfold Listings.afterDst
  by_cases hend : srcs = [] ∧ dsts = []
  · refine .inl ⟨?_, ?_⟩
    · rw [if_pos, hstop' hend.1]
      rw [hloaded.src.hasMore, hloaded.dst.hasMore]
      simp [hend]
    · simp [toCome, hend, firsts, join]
  · rw [if_neg]
    · exact .inr (hloaded.inspect hstop' (by simpa [← not_and_or] using hend))
    · rw [hloaded.src.hasMore, hloaded.dst.hasMore]
      simpa using hend

end

/-! ## The loop -/

theorem loop_eq (m : March) : ∀ (fuel : Nat) {s : Listings} {sp dp : Option Name} {srcs dsts : List Entry},
    s.left < fuel → s.Holds m sp dp srcs dsts → loop m fuel s = ⟨toCome m sp dp srcs dsts, .returned m.noProcessDstOnly⟩
  | 0, _, _, _, _, _, hfuel, _ => absurd hfuel (Nat.not_lt_zero _)
  | fuel + 1, s, sp, dp, srcs, dsts, hfuel, h => by
    rcases h.turn with ⟨hturn, hnil⟩ | ⟨s', made, sp', dp', srcs', dsts', hturn, h', hcome⟩
    · simp [loop, hturn, hnil]
    · have hleft := Listings.left_of_turn hturn
      have hrun := loop_eq m fuel (by omega) h'
      simp [loop, hturn, hrun, hcome]

theorem matchListings_toCome (m : March) (srcs : Listing m.srcKey) (dsts : Listing m.dstKey) :
    matchListings m (srcs.entries.map some) (dsts.entries.map some) =
      ⟨toCome m none none srcs.entries dsts.entries, .returned m.noProcessDstOnly⟩ := by
  have hstart : Listings.Holds m { srcChan := srcs.entries.map some, dstChan := dsts.entries.map some } none none
      srcs.entries dsts.entries :=
    ⟨⟨by simp, by simp, rfl, by simp⟩, ⟨by simp, by simp, rfl, by simp⟩, ⟨srcs.sorted, by simp⟩,
      ⟨dsts.sorted, by simp⟩⟩
  have hrun := loop_eq m (srcs.entries.length + dsts.entries.length + 1) (by simp [Listings.left, Cursor.left]) hstart
  rw [matchListings, length_map, length_map, hrun]

theorem matchListings_eq (m : March) (srcs : Listing m.srcKey) (dsts : Listing m.dstKey) :
    matchListings m (srcs.entries.map some) (dsts.entries.map some) =
      ⟨(outerJoin (fun e => m.srcKey (some e)) (fun e => m.dstKey (some e)) m.noProcessDstOnly srcs.entries
        dsts.entries).map Callback.ofRow, .returned m.noProcessDstOnly⟩ := by
  rw [matchListings_toCome, toCome, join_firsts srcs.sorted dsts.sorted]

/-! ## Key by key -/

section

variable (m : March) (srcs dsts : List Entry)

/-- The callback of a key: for the first entries that have it. With `NoProcessDstOnly` a key above all source keys has
none. -/
def callbackAt (k : Name) : Option Callback :=
  match srcs.find? (fun e => m.srcKey (some e) = k), dsts.find? (fun e => m.dstKey (some e) = k) with
  | some src, some dst => some (.matched dst src)
  | some src, none => some (.srcOnly src)
  | none, some dst =>
    if m.noProcessDstOnly ∧ ∀ src ∈ srcs, m.srcKey (some src) < k then none else some (.dstOnly (some dst))
  | none, none => none

theorem callbackAt_eq (k : Name) :
    callbackAt m srcs dsts k = (if m.noProcessDstOnly = true → ∃ src ∈ srcs, k ≤ m.srcKey (some src) then
      rowAt (fun e => m.srcKey (some e)) (fun e => m.dstKey (some e)) srcs dsts k else none).map Callback.ofRow := by
  have hmem : ∀ src, srcs.find? (fun e => m.srcKey (some e) = k) = some src →
      ∃ src ∈ srcs, k ≤ m.srcKey (some src) := by
    intro src h
    have hk : m.srcKey (some src) = k := by simpa using find?_some h
    exact ⟨src, mem_of_find?_eq_some h, hk.ge⟩
  rw [callbackAt, rowAt]
  generalize srcs.find? (fun e => m.srcKey (some e) = k) = fs at hmem ⊢
  generalize dsts.find? (fun e => m.dstKey (some e) = k) = fd
  rcases fs with _ | src
  · rcases fd with _ | dst
    · simp
    · dsimp only
      by_cases hstop : m.noProcessDstOnly = true ∧ ∀ src ∈ srcs, m.srcKey (some src) < k
      · rw [if_pos hstop, if_neg (by simpa using hstop)]
        rfl
      · rw [if_neg hstop, if_pos (by simpa using hstop)]
        rfl
  · rw [if_pos fun _ => hmem src rfl]
    rcases fd with _ | dst <;> rfl

/-- The keys of two listings, in increasing order. -/
def sortedKeys : List Name :=
  (rowKeys (fun e => m.srcKey (some e)) (fun e => m.dstKey (some e)) false srcs dsts).sort (· ≤ ·)

end

theorem mem_sortedKeys {srcs dsts : List Entry} {k : Name} : k ∈ sortedKeys m srcs dsts ↔
    (∃ e ∈ srcs, m.srcKey (some e) = k) ∨ ∃ e ∈ dsts, m.dstKey (some e) = k := by
  simp [sortedKeys, rowKeys]

theorem matchListings_filterMap (m : March) (srcs : Listing m.srcKey) (dsts : Listing m.dstKey) :
    matchListings m (srcs.entries.map some) (dsts.entries.map some) =
      ⟨(sortedKeys m srcs.entries dsts.entries).filterMap (callbackAt m srcs.entries dsts.entries),
        .returned m.noProcessDstOnly⟩ := by
  rw [matchListings_eq, outerJoin_eq_filterMap, map_filterMap]
  simp only [← callbackAt_eq]
  rfl

/-- **On sorted listings, duplicates included, the loop goes once through the keys of both in increasing order, makes
the callback of each, and returns without a panic.** -/
theorem matchListings_callbacks (m : March) (srcs : Listing m.srcKey) (dsts : Listing m.dstKey) :
    ∃ keys : List Name, keys.Pairwise (· < ·) ∧
      (∀ k, k ∈ keys ↔ (∃ e ∈ srcs.entries, m.srcKey (some e) = k) ∨ ∃ e ∈ dsts.entries, m.dstKey (some e) = k) ∧
      matchListings m (srcs.entries.map some) (dsts.entries.map some) =
        ⟨keys.filterMap (callbackAt m srcs.entries dsts.entries), .returned m.noProcessDstOnly⟩ :=
  ⟨sortedKeys m srcs.entries dsts.entries, (Finset.sortedLT_sort _).pairwise, fun _ => mem_sortedKeys,
    matchListings_filterMap m srcs dsts⟩

end ZClone.March
