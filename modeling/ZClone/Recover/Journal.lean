import ZClone.Recover.Basic
import Mathlib.Data.String.Basic
import Mathlib.Data.Set.Function

/-!
# The journal

`Journal.enter` reads a journal file, drops an unterminated last line and refuses a line that is not a row of the
checksum chain; `Journal.append` writes one row. A journal is a log of chained lines (`ZClone.Lib.RowCodec`), so that
opening what is left of a journal after a stopped write gives the journal of the events whose lines are complete
(`enter_render`), and a file is opened iff its complete lines are chained rows (`enter_eq_ok`).
-/

namespace ZClone.Recover

open Lib List

/-- `'0' * 64` -/
def initialDigest : String := String.ofList (List.replicate 64 '0')

/-- An opened journal: the file as it is on disk, its events and the running digest. -/
structure Journal where
  file : Bytes
  events : List Event
  digest : String
  deriving DecidableEq

namespace Journal

variable (L : Python) {es : List Event} {l : Bytes}

/-- `hashlib.sha256(self.digest.encode() + encode(event)).hexdigest()` -/
def nextDigest (digest : String) (event : Event) : String :=
  L.sha256 (digest.toUTF8.data.toList ++ L.encodeEvent event)

def refusing : Error := .valueError "invalid recovery journal; refusing to resume" ""

/-- The complete lines of the file, read one by one. -/
def readLines : String → List Event → List Bytes → Except Error (List Event × String)
  | digest, events, [] => .ok (events, digest)
  | digest, events, line :: lines =>
    match L.loadsRow line with
    | none => .error refusing
    | some row =>
      if row.sha256 ≠ nextDigest L digest row.event then .error refusing
      else readLines (nextDigest L digest row.event) (events ++ [row.event]) lines

/-- `__enter__`. The unterminated line, if there is one, is the last that `readline` returns, and the file is
truncated at its start. -/
def enter (file : Bytes) : Except Error Journal :=
  let lines := (splitLines 10 file).1
  match readLines L initialDigest [] lines with
  | .error e => .error e
  | .ok (events, digest) => .ok { file := lines.flatten, events, digest }

/-- What `append` writes for an event. -/
def line (digest : String) (event : Event) : Bytes := L.encodeRow ⟨event, nextDigest L digest event⟩ ++ [10]

def append (j : Journal) (event : Event) : Journal :=
  { file := j.file ++ line L j.digest event
    events := j.events ++ [event]
    digest := nextDigest L j.digest event }

def appendAll (j : Journal) (events : List Event) : Journal := events.foldl (append L) j

/-! ## Journals as chained logs -/

/-- Journal rows as the rows of a chained log. -/
def codec : RowCodec UInt8 Event String where
  nl := 10
  link := nextDigest L
  enc e d := L.encodeRow ⟨e, d⟩
  dec l := (L.loadsRow l).map fun r => (r.event, r.sha256)
  dec_enc e d := by rw [L.loadsRow_encodeRow]; rfl
  nl_notMem e d := L.newline_notMem_encodeRow _

/-- The text of a journal with these events. -/
def render (es : List Event) : Bytes := (codec L).render initialDigest es

/-- The digest after these events. -/
def chainedDigest (es : List Event) : String := es.foldl (nextDigest L) initialDigest

/-- The journal that appending these events to a new file gives. -/
def ofEvents (es : List Event) : Journal := ⟨render L es, es, chainedDigest L es⟩

variable {L} {file : Bytes}

theorem codec_link (d : String) (e : Event) : (codec L).link d e = nextDigest L d e := rfl

theorem codec_dec_none (h : L.loadsRow l = none) : (codec L).dec l = none := by simp [codec, h]

theorem codec_dec_some {r : Row} (h : L.loadsRow l = some r) :
    (codec L).dec l = some (r.event, r.sha256) := by simp [codec, h]

theorem readLines_eq : ∀ (d : String) (es : List Event) (ls : List Bytes), readLines L d es ls =
    match (codec L).scan d ls with
    | none => .error refusing
    | some (fs, d') => .ok (es ++ fs, d')
  | d, es, [] => by simp [readLines, RowCodec.scan]
  | d, es, l :: ls => by
    rw [readLines]
    cases hl : L.loadsRow l with
    | none => rw [RowCodec.scan_cons_none (codec_dec_none hl)]
    | some row =>
      by_cases h : row.sha256 = nextDigest L d row.event
      · have hd : (codec L).dec l = some (row.event, (codec L).link d row.event) := by
          rw [codec_dec_some hl, h]; rfl
        have ih := readLines_eq (nextDigest L d row.event) (es ++ [row.event]) ls
        dsimp only
        rw [if_neg (by simpa using h), RowCodec.scan_cons_row hd, ih, codec_link]
        cases (codec L).scan (nextDigest L d row.event) ls with
        | none => rfl
        | some r => simp
      · dsimp only
        rw [if_pos (by simpa using h), RowCodec.scan_cons_bad (codec_dec_some hl) h]

/-- Opening a journal with an unterminated rest gives the journal without it. -/
theorem enter_render (es : List Event) {t : Bytes} (ht : 10 ∉ t) :
    enter L (render L es ++ t) = .ok (ofEvents L es) := by
  have hs : splitLines 10 (render L es ++ t) = ((codec L).lines initialDigest es, t) :=
    RowCodec.splitLines_render (C := codec L) initialDigest es ht
  have hr : (codec L).scan initialDigest ((codec L).lines initialDigest es) = some (es, chainedDigest L es) :=
    RowCodec.scan_lines initialDigest es
  simp only [enter, hs, readLines_eq, hr, nil_append]
  rfl

theorem append_ofEvents (es : List Event) (e : Event) : append L (ofEvents L es) e = ofEvents L (es ++ [e]) := by
  have hr : render L (es ++ [e]) = render L es ++ line L (chainedDigest L es) e :=
    RowCodec.render_snoc (C := codec L) initialDigest es e
  simp [append, ofEvents, hr, chainedDigest]

theorem appendAll_ofEvents (es fs : List Event) : appendAll L (ofEvents L es) fs = ofEvents L (es ++ fs) := by
  induction fs generalizing es with
  | nil => simp [appendAll]
  | cons f fs ih =>
    have := ih (es ++ [f])
    simp only [appendAll, foldl_cons, append_ofEvents] at this ⊢
    simpa using this

/-- The rows that lines decode to, in terms of `json.loads`. -/
theorem codec_rows : ∀ {ls : List Bytes} {rows : List Row},
    (codec L).rows ls = some (rows.map fun r => (r.event, r.sha256)) ↔ ls.map L.loadsRow = rows.map some
  | [], rows => by
    cases rows <;> simp [RowCodec.rows]
  | l :: ls, rows => by
    rw [RowCodec.rows_cons]
    constructor
    · rintro ⟨r, rs, hl, hls, he⟩
      cases rows with
      | nil => cases he
      | cons row rows =>
        obtain ⟨rfl, rfl⟩ := cons.inj he
        obtain ⟨row', hrow, hr⟩ := Option.map_eq_some_iff.1 hl
        have : row' = row := by cases row; cases row'; simpa using hr
        rw [map_cons, map_cons, hrow, this, codec_rows.1 hls]
    · intro h
      cases rows with
      | nil => cases h
      | cons row rows =>
        obtain ⟨hl, hls⟩ := cons.inj h
        exact ⟨_, _, codec_dec_some hl, codec_rows.2 hls, rfl⟩

/-- Every row has the digest chained over the events up to it. -/
def Chained (L : Python) (rows : List Row) : Prop :=
  ∀ i (h : i < rows.length), rows[i].sha256 = chainedDigest L ((rows.take (i + 1)).map Row.event)

theorem codec_chained {rows : List Row} :
    (codec L).Chained initialDigest (rows.map fun r => (r.event, r.sha256)) ↔ Chained L rows := by
  simp only [RowCodec.Chained, Chained, length_map, getElem_map, ← map_take, map_map]
  rfl

/-- **What is opened**: files whose complete lines are rows, each with the digest chained over the events so far. -/
theorem enter_eq_ok {j : Journal} : enter L file = .ok j ↔
    ∃ rows : List Row, (splitLines 10 file).1.map L.loadsRow = rows.map some ∧ Chained L rows ∧
      j = ⟨(splitLines 10 file).1.flatten, rows.map Row.event, chainedDigest L (rows.map Row.event)⟩ := by
  simp only [enter, readLines_eq, nil_append]
  constructor
  · intro h
    cases hs : (codec L).scan initialDigest (splitLines 10 file).1 with
    | none => rw [hs] at h; cases h
    | some r =>
      obtain ⟨es, d⟩ := r
      rw [hs] at h
      obtain ⟨rs, hr, hc, rfl, rfl⟩ := RowCodec.scan_eq_some.1 hs
      have hrs : rs = (rs.map fun x => (⟨x.1, x.2⟩ : Row)).map fun r => (r.event, r.sha256) := by
        rw [map_map]; exact (map_id rs).symm
      rw [hrs] at hr hc
      refine ⟨_, codec_rows.1 hr, codec_chained.1 hc, ?_⟩
      rw [← Except.ok.inj h]
      simp only [map_map]
      rfl
  · rintro ⟨rows, hr, hc, rfl⟩
    have he : rows.map Row.event = (rows.map fun r => (r.event, r.sha256)).map Prod.fst := by simp
    rw [RowCodec.scan_eq_some.2 ⟨_, codec_rows.2 hr, codec_chained.2 hc, he, rfl⟩]
    rfl

theorem enter_eq_error {e : Error} (h : enter L file = .error e) : e = refusing := by
  simp only [enter, readLines_eq] at h
  cases hs : (codec L).scan initialDigest (splitLines 10 file).1 with
  | none => rw [hs] at h; exact (Except.error.inj h).symm
  | some r => rw [hs] at h; cases h

/-! ## Stopped writes -/

/-- The journal files that rounds of opening, appending and stopping at any byte leave. -/
inductive Written (L : Python) : Bytes → Prop
  | create : Written L []
  | crash {file p : Bytes} {j : Journal} (new : List Event) : Written L file → enter L file = .ok j →
      j.file <+: p → p <+: (appendAll L j new).file → Written L p

/-- **One round**: what is left of a journal opens as the journal of the events whose lines it contains. -/
theorem enter_prefix {new : List Event} {p : Bytes} (h0 : render L es <+: p) (hp : p <+: render L (es ++ new)) :
    ∃ k ≤ new.length, (∀ i ≤ new.length, render L (es ++ new.take i) <+: p ↔ i ≤ k) ∧
      enter L p = .ok (ofEvents L (es ++ new.take k)) := by
  obtain ⟨q, rfl⟩ := h0
  have hq : q <+: (codec L).render (chainedDigest L es) new := by
    have := hp
    rw [render, render, RowCodec.render_append, prefix_append_right_inj] at this
    exact this
  obtain ⟨fs, gs, t, rfl, rfl, ht⟩ := RowCodec.prefix_render hq
  have happ : ∀ xs, render L (es ++ xs) = render L es ++ (codec L).render (chainedDigest L es) xs :=
    fun xs => RowCodec.render_append _ _ _
  refine ⟨fs.length, by simp, fun i hi => ?_, ?_⟩
  · rw [happ, prefix_append_right_inj]
    constructor
    · intro h
      by_contra hlt
      -- one more line does not fit before the unterminated rest
      have htake : (fs ++ gs).take i = fs ++ gs.take (i - fs.length) := by
        rw [take_append, take_of_length_le (by omega)]
      cases hg : gs.take (i - fs.length) with
      | nil =>
        have := congrArg length hg
        simp only [length_take, length_nil, length_append] at this hi
        omega
      | cons g gs' =>
        rw [htake, hg] at h
        exact RowCodec.not_prefix_snoc ht g gs' h
    · intro h
      rw [take_append_of_le_length h]
      have hsplit := RowCodec.render_append (C := codec L) (chainedDigest L es) (fs.take i) (fs.drop i)
      rw [take_append_drop] at hsplit
      rw [hsplit, append_assoc]
      exact prefix_append _ _
  · rw [take_left, ← append_assoc, ← happ]
    exact enter_render _ ht

/-- Every journal file so written opens, as the journal of some events. -/
theorem Written.opens (h : Written L file) : ∃ es, enter L file = .ok (ofEvents L es) ∧ render L es <+: file := by
  induction h with
  | create => exact ⟨[], enter_render [] (t := []) (by simp), prefix_rfl⟩
  | @crash file p j new _ hj h0 hp ih =>
    obtain ⟨es, he, -⟩ := ih
    rw [he] at hj
    cases hj
    rw [appendAll_ofEvents] at hp
    obtain ⟨k, hle, hk, hent⟩ := enter_prefix h0 hp
    exact ⟨_, hent, (hk k hle).2 le_rfl⟩

/-! ## Tampering -/

theorem utf8Len_hex : ∀ {cs : List Char}, (∀ c ∈ cs, c ∈ "0123456789abcdef".toList) → String.utf8Len cs = cs.length
  | [], _ => rfl
  | c :: cs, h => by
    have hc : ∀ c ∈ "0123456789abcdef".toList, c.utf8Size = 1 := by simp [Char.utf8Size]
    rw [String.utf8Len_cons, utf8Len_hex fun c hc => h c (mem_cons_of_mem _ hc), hc c (h c (by simp))]
    rfl

theorem length_digest {d : String} (h : isHex 64 d = true) : d.toUTF8.data.toList.length = 64 := by
  obtain ⟨hlen, hall⟩ := Bool.and_eq_true_iff.1 h
  have hlen : d.length = 64 := by simpa using hlen
  have hhex : ∀ c ∈ d.toList, c ∈ "0123456789abcdef".toList := by simpa using hall
  calc d.toUTF8.data.toList.length = d.utf8ByteSize := rfl
    _ = d.toList.length := by rw [← String.utf8Len_toList, utf8Len_hex hhex]
    _ = 64 := by rw [String.length_toList, hlen]

theorem isHex_chainedDigest (es : List Event) : isHex 64 (chainedDigest L es) = true := by
  rcases eq_nil_or_concat' es with rfl | ⟨es, e, rfl⟩
  · show isHex 64 initialDigest = true
    decide
  · rw [chainedDigest, foldl_append]
    exact L.isHex_sha256 _

/-- The data hashed when rows of a journal of the events `es` are read after one another in any order. -/
def hashed (L : Python) (es : List Event) : Set Bytes :=
  { x | ∃ fs, fs <+: es ∧ ∃ e ∈ es, x = (chainedDigest L fs).toUTF8.data.toList ++ L.encodeEvent e }

section

variable (hinj : Set.InjOn L.sha256 (hashed L es)) (hzero : ∀ x ∈ hashed L es, L.sha256 x ≠ initialDigest)

include hinj hzero

theorem noCollision : (codec L).NoCollision initialDigest es where
  link_inj {fs gs e f} hf hg he hf' h := by
    have heq : (chainedDigest L fs).toUTF8.data.toList ++ L.encodeEvent e =
        (chainedDigest L gs).toUTF8.data.toList ++ L.encodeEvent f :=
      hinj ⟨fs, hf, e, he, rfl⟩ ⟨gs, hg, f, hf', rfl⟩ h
    have hlen : (chainedDigest L fs).toUTF8.data.toList.length = (chainedDigest L gs).toUTF8.data.toList.length := by
      rw [length_digest (isHex_chainedDigest fs), length_digest (isHex_chainedDigest gs)]
    have hdata := Array.toList_inj.1 (append_inj heq hlen).1
    exact String.toByteArray_inj.1 (congrArg ByteArray.mk hdata)
  link_ne {fs e} hf he := hzero _ ⟨fs, hf, e, he, rfl⟩

/-- Lines of a journal in another arrangement are refused. -/
theorem enter_rearranged (hmem : ∀ l ∈ (splitLines 10 file).1, l ∈ (splitLines 10 (render L es)).1)
    (hpre : ¬ (splitLines 10 file).1 <+: (splitLines 10 (render L es)).1) : enter L file = .error refusing := by
  have hs : splitLines 10 (render L es) = ((codec L).lines initialDigest es, []) := by
    have := RowCodec.splitLines_render (C := codec L) initialDigest es (t := []) (by simp)
    rwa [append_nil] at this
  rw [hs] at hmem hpre
  have hnone : (codec L).scan initialDigest (splitLines 10 file).1 = none := by
    by_contra hne
    exact hpre ((noCollision hinj hzero).scan_initial (nil_append es).symm hmem hne)
  simp only [enter, readLines_eq, hnone]

end

end Journal

/-- **The journal survives a crash at any byte.** Every file that rounds of opening, appending and stopping leave
opens. If events are appended and a prefix of the file is left with all records whose append returned, it opens as the
journal of the events whose lines are in the prefix, and can be appended to and opened again. A file with a complete
line that is no row, or with a row whose digest is not the chained one, is refused; so is, if SHA-256 is injective on
what is hashed and does not give the initial digest there, one with lines of a journal that are not its first ones in
order. -/
theorem journal_crash_safe (L : Python) :
    (∀ file, Journal.Written L file → ∃ j, Journal.enter L file = .ok j ∧ j.file <+: file ∧
      ∀ (new : List Event) (returned : Nat) (p : Bytes),
        (j.appendAll L (new.take returned)).file <+: p → p <+: (j.appendAll L new).file →
        ∃ k ≤ new.length, (returned ≤ new.length → returned ≤ k) ∧
          (∀ i ≤ new.length, (j.appendAll L (new.take i)).file <+: p ↔ i ≤ k) ∧
          Journal.enter L p = .ok (j.appendAll L (new.take k)) ∧
          (j.appendAll L (new.take k)).events = j.events ++ new.take k ∧
          ∀ more, Journal.enter L ((j.appendAll L (new.take k)).appendAll L more).file =
            .ok ((j.appendAll L (new.take k)).appendAll L more)) ∧
    (∀ file, (∃ line ∈ (splitLines 10 file).1, L.loadsRow line = none) →
      Journal.enter L file = .error Journal.refusing) ∧
    (∀ (file : Bytes) (rows : List Row), (splitLines 10 file).1.map L.loadsRow = rows.map some →
      (∃ i, ∃ h : i < rows.length, rows[i].sha256 ≠ Journal.chainedDigest L ((rows.take (i + 1)).map Row.event)) →
      Journal.enter L file = .error Journal.refusing) ∧
    (∀ (es : List Event) (file : Bytes), Set.InjOn L.sha256 (Journal.hashed L es) →
      (∀ x ∈ Journal.hashed L es, L.sha256 x ≠ initialDigest) →
      (∀ l ∈ (splitLines 10 file).1, l ∈ (splitLines 10 ((⟨[], [], initialDigest⟩ : Journal).appendAll L es).file).1) →
      ¬ (splitLines 10 file).1 <+: (splitLines 10 ((⟨[], [], initialDigest⟩ : Journal).appendAll L es).file).1 →
      Journal.enter L file = .error Journal.refusing) := by
  have hrefuse : ∀ file : Bytes, (∀ j, Journal.enter L file ≠ .ok j) →
      Journal.enter L file = .error Journal.refusing := by
    intro file h
    cases he : Journal.enter L file with
    | error e => rw [Journal.enter_eq_error he]
    | ok j => exact absurd he (h j)
  refine ⟨fun file hw => ?_, fun file hl => hrefuse file fun j hj => ?_,
    fun file rows hr hi => hrefuse file fun j hj => ?_, fun es file hinj hzero hmem hpre => ?_⟩
  · obtain ⟨es, he, hpre⟩ := hw.opens
    refine ⟨_, he, hpre, fun new returned p h0 hp => ?_⟩
    simp only [Journal.appendAll_ofEvents] at h0 hp ⊢
    have h0' : Journal.render L es <+: p := by
      refine List.IsPrefix.trans ?_ h0
      show Journal.render L es <+: Journal.render L (es ++ new.take returned)
      rw [Journal.render, Journal.render, RowCodec.render_append]
      exact prefix_append _ _
    obtain ⟨k, hk, hiff, hent⟩ := Journal.enter_prefix h0' hp
    refine ⟨k, hk, fun hr => (hiff returned hr).1 h0, hiff, hent, rfl, fun more => ?_⟩
    have := Journal.enter_render (L := L) (es ++ new.take k ++ more) (t := []) (by simp)
    rwa [append_nil] at this
  · obtain ⟨rows, hr, -⟩ := Journal.enter_eq_ok.1 hj
    obtain ⟨line, hmem, hnone⟩ := hl
    have : L.loadsRow line ∈ rows.map some := hr ▸ mem_map_of_mem hmem
    rw [hnone] at this
    simp at this
  · obtain ⟨rows', hr', hc, -⟩ := Journal.enter_eq_ok.1 hj
    have : rows' = rows := map_injective_iff.2 (fun _ _ h => Option.some.inj h) (hr'.symm.trans hr)
    subst this
    obtain ⟨i, hi, hne⟩ := hi
    exact hne (hc i hi)
  · have hfile : ((⟨[], [], initialDigest⟩ : Journal).appendAll L es).file = Journal.render L es :=
      congrArg Journal.file (Journal.appendAll_ofEvents [] es)
    rw [hfile] at hmem hpre
    exact Journal.enter_rearranged hinj hzero hmem hpre

end ZClone.Recover
