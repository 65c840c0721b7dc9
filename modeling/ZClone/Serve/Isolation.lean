import Mathlib.Data.Set.Function
import ZClone.Serve.Proxy

/-!
# What a login proves

A VFS handed out for a login should be one the program has agreed to for this user, this credential, shown as the same
kind, and this address.

Every cache is keyed on a text made from the request, so the argument is one of ownership: a text `Belongs` to the name
of a backend when it starts with that name and a colon, every entry is owned by the request it was made for (`Inv`), and
two requests that own the same text have asked the program the same question (`input_eq_of_fsName_eq`). The last step
needs the two kinds of credentials to stay apart (`Separated.same_kind`): the keys do not tell a password from a
public key with the same text, and `offered_key_opens_password_login` is what follows.
-/

namespace ZClone.AuthProxy

open Paths List Function

/-! ## Names -/

/-- `key` is the name `n` with some root. -/
def Belongs (n key : Text) : Prop := ∃ root, key = n ++ colon :: root

variable {key : Text}

theorem takeWhile_of_belongs {n : Text} (hn : colon ∉ n) (h : Belongs n key) : key.takeWhile (· ≠ colon) = n := by
  obtain ⟨root, rfl⟩ := h
  rw [takeWhile_append_of_pos, takeWhile_cons_of_neg, append_nil]
  · simp
  · intro b hb
    simpa using fun heq : b = colon => hn (heq ▸ hb)

theorem belongs_unique {n m : Text} (hn : colon ∉ n) (hm : colon ∉ m) (h : Belongs n key) (h' : Belongs m key) :
    n = m := (takeWhile_of_belongs hn h).symm.trans (takeWhile_of_belongs hm h')

theorem digit_ne_colon : ∀ n < 16, Hex.digit n ≠ colon := by decide

theorem colon_notMem_encode (bs : Text) : colon ∉ Hex.encode bs := by
  intro h
  obtain ⟨n, hn, heq⟩ := Hex.exists_of_mem_encode h
  exact digit_ne_colon n hn heq.symm

theorem jsonText_of_valid {s : Text} (h : Utf8.Valid (Utf8.symbols s)) : jsonText s = s := by
  have hrune : ∀ xs : List Utf8.Symbol, Utf8.Valid xs →
      xs.flatMap (fun x => Utf8.encodeRune x.rune) = Utf8.bytes xs := by
    intro xs hxs
    refine flatMap_congr fun x hx => ?_
    obtain ⟨c, rfl⟩ := hxs x hx
    rfl
  rw [jsonText, hrune _ h, Utf8.bytes_symbols]

variable (env : Env)

/-! ## Requests that can be told apart -/

/-- The truncated HMAC tells the inputs of these requests apart. -/
def MacInjective (S : Set Request) : Prop :=
  Set.InjOn env.mac {x | ∃ r ∈ S, x = macInput r.auth (r.clientIP env)}

/-- Requests whose keys say everything the program is asked. -/
structure Separated (S : Set Request) : Prop where
  /-- What is shown as a password for a user from an address is not also shown as a public key. -/
  same_kind : ∀ r ∈ S, ∀ r' ∈ S, r.user = r'.user → r.auth = r'.auth → r.clientIP env = r'.clientIP env →
    r.isPublicKey = r'.isPublicKey
  no_colon : ∀ r ∈ S, colon ∉ r.user
  no_nul : ∀ r ∈ S, 0 ∉ r.clientIP env
  valid_user : ∀ r ∈ S, Utf8.Valid (Utf8.symbols r.user)
  valid_auth : ∀ r ∈ S, Utf8.Valid (Utf8.symbols r.auth)
  valid_ip : ∀ r ∈ S, Utf8.Valid (Utf8.symbols (r.clientIP env))

/-- The backends that are created report the name they were created under. -/
def Outside.KeepsNames (o : Outside) : Prop :=
  ∀ info name root config,
    match o.newFs info name root config with
    | .failed => True
    | .dir configString | .file configString => Belongs name configString

variable {env} {S : Set Request} {create : Except FsErr (Cache.Entry Fs FsErr)} {f : Fs} {r r' : Request}
  {fsString : Text}
  {log' log : List (Input × Config)}

theorem json_input (h : Separated env S) (hr : r ∈ S) : (r.input env).json = r.input env := by
  have huser := jsonText_of_valid (h.valid_user r hr)
  have hauth := jsonText_of_valid (h.valid_auth r hr)
  have hip := jsonText_of_valid (h.valid_ip r hr)
  unfold Request.input Input.json
  simp only [Input.mk.injEq, huser, true_and]
  refine ⟨?_, ?_, ?_⟩ <;> split_ifs <;> simp only [Option.map_none, Option.map_some, hauth, hip]

theorem macInput_injective {auth auth' ip ip' : Text} (hip : 0 ∉ ip) (hip' : 0 ∉ ip')
    (h : macInput auth ip = macInput auth' ip') : auth = auth' ∧ ip = ip' := by
  -- the address is what follows the last zero byte
  have htail : ∀ {a i : Text}, 0 ∉ i → (macInput a i).rtakeWhile (· ≠ 0) = i := by
    intro a i hi
    exact (rdropWhile_append (fun c hc => by simpa using fun heq : c = 0 => hi (heq ▸ hc)) (by simp)).2
  have hips : ip = ip' := by rw [← htail hip (a := auth), h, htail hip']
  subst hips
  exact ⟨append_cancel_right h, rfl⟩

section

variable (h : Separated env S) (hmac : MacInjective env S) (hr : r ∈ S) (hr' : r' ∈ S)

include h hmac hr hr'

theorem cacheKey_injective (heq : r.cacheKey env = r'.cacheKey env) :
    r.user = r'.user ∧ r.auth = r'.auth ∧ r.clientIP env = r'.clientIP env := by
  have hlen : ∀ x, (dash :: Hex.encode (env.mac x)).length = 17 := fun x => by
    rw [length_cons, Hex.length_encode, env.length_mac]
  obtain ⟨huser, hkey⟩ := append_inj' heq ((hlen _).trans (hlen _).symm)
  have hin := hmac ⟨r, hr, rfl⟩ ⟨r', hr', rfl⟩ (Hex.encode_injective (cons.inj hkey).2)
  exact ⟨huser, macInput_injective (h.no_nul r hr) (h.no_nul r' hr') hin⟩

theorem input_eq_of_cacheKey_eq (heq : r.cacheKey env = r'.cacheKey env) : r.input env = r'.input env := by
  obtain ⟨huser, hauth, hip⟩ := cacheKey_injective h hmac hr hr' heq
  unfold Request.input
  rw [huser, hauth, hip, h.same_kind r hr r' hr' huser hauth hip]

theorem input_eq_of_fsName_eq (heq : r.fsName env = r'.fsName env) : r.input env = r'.input env :=
  input_eq_of_cacheKey_eq h hmac hr hr' (append_cancel_left heq)

end

theorem colon_notMem_fsName (h : Separated env S) (hr : r ∈ S) : colon ∉ r.fsName env := by
  unfold Request.fsName proxyName Request.cacheKey generateCacheKey
  simp only [mem_append, mem_cons, not_or]
  exact ⟨by decide, h.no_colon r hr, by decide, colon_notMem_encode _⟩

/-! ## Where a backend comes from -/

/-- `f` is the backend the answer `answer` describes, made for the request `r`. -/
structure BuiltFor (env : Env) (f : Fs) (r : Request) (answer : Config) : Prop where
  name : f.name = r.fsName env
  described : ∃ obscure config fsName, obscureFields obscure answer = some config ∧ config typeKey = some fsName ∧
    env.find fsName = some f.info ∧ config rootKey = some f.root ∧ f.config = withDefaults f.info config

/-- `f` was made from an answer of the program to a request of `S`, and reports its own name. -/
structure Known (env : Env) (S : Set Request) (log : List (Input × Config)) (f : Fs) : Prop where
  built : ∃ r ∈ S, ∃ answer, (r.input env, answer) ∈ log ∧ BuiltFor env f r answer
  no_colon : colon ∉ f.name
  reports : Belongs f.name f.configString

theorem Known.mono (hlog : log ⊆ log') (h : Known env S log f) : Known env S log' f :=
  ⟨let ⟨r, hr, answer, hmem, hbuilt⟩ := h.built; ⟨r, hr, answer, hlog hmem, hbuilt⟩, h.no_colon, h.reports⟩

/-- Two known backends that own the same text have the same name. -/
theorem Known.name_eq {g : Fs} (hf : Known env S log f) (hg : Known env S log g)
    (hfk : Belongs f.name key) (hgk : Belongs g.name key) : f.name = g.name :=
  belongs_unique hf.no_colon hg.no_colon hfk hgk

/-! ## The cache of backends -/

structure FsCache.Inv (env : Env) (S : Set Request) (log : List (Input × Config)) (c : FsCache) : Prop where
  known : c.cache.Holds fun key f => Known env S log f ∧ Belongs f.name key
  remap : ∀ key key', c.remap key = some key' → ∀ n, colon ∉ n → Belongs n key → Belongs n key'

namespace FsCache

variable {log : List (Input × Config)} {c : FsCache} {n : Text}

section

variable (h : Inv env S log c)

include h

theorem Inv.canonicalize (hn : colon ∉ n) (hkey : Belongs n key) : Belongs n (c.canonicalize key) := by
  unfold FsCache.canonicalize
  cases hmap : c.remap key with
  | none => exact hkey
  | some key' => exact h.remap key key' hmap n hn hkey

theorem Inv.addMapping {key' : Text} (hn : colon ∉ n) (hkey : Belongs n key)
    (hkey' : Belongs n key') : Inv env S log (c.addMapping key key') := by
  unfold FsCache.addMapping
  split_ifs with heq
  · exact h
  · refine ⟨h.known, fun k k' hk m hm hmk => ?_⟩
    dsimp only at hk
    rw [update_apply] at hk
    split_ifs at hk with hcase
    · cases hk
      exact belongs_unique hm hn (hcase ▸ hmk) hkey ▸ hkey'
    · exact h.remap k k' hk m hm hmk

theorem Inv.addChild (child parent : Text) : Inv env S log (c.addChild child parent) := by
  unfold FsCache.addChild
  split_ifs
  · exact h
  · exact ⟨h.known, h.remap⟩

theorem Inv.put (hf : Known env S log f) (hkey : Belongs f.name key) : Inv env S log (c.put key f) := by
  have hput : Inv env S log { c with cache := c.cache.put f.configString f } :=
    ⟨h.known.keep ⟨hf, hf.reports⟩, h.remap⟩
  exact hput.addMapping hf.no_colon hkey hf.reports

theorem Inv.settle (fsString : Text) {canonical : Text} (hf : Known env S log f)
    (hcanonical : Belongs f.name canonical) (err : Option FsErr) :
    Inv env S log (c.settle fsString canonical f err).2 ∧ Known env S log (c.settle fsString canonical f err).1 ∧
      (c.settle fsString canonical f err).1.name = f.name := by
  unfold FsCache.settle
  split_ifs with heq
  · exact ⟨h, hf, rfl⟩
  · have hmove : ∀ g, Known env S log g ∧ Belongs g.name canonical → Known env S log g ∧
        Belongs g.name f.configString := by
      rintro g ⟨hg, hgc⟩
      exact ⟨hg, hg.name_eq hf hgc hcanonical ▸ hf.reports⟩
    obtain ⟨hcache, hfound⟩ := h.known.rename hmove
    have hg : Known env S log ((c.cache.rename canonical f.configString).1.getD f) ∧
        ((c.cache.rename canonical f.configString).1.getD f).name = f.name := by
      cases hr : (c.cache.rename canonical f.configString).1 with
      | none => exact ⟨hf, rfl⟩
      | some g =>
        obtain ⟨hknown, hgf⟩ := hfound g hr
        exact ⟨hknown, hknown.name_eq hf hgf hf.reports⟩
    have hinv : Inv env S log { c with cache := (c.cache.rename canonical f.configString).2 } := ⟨hcache, h.remap⟩
    cases err with
    | none => exact ⟨hinv.addMapping hf.no_colon hcanonical hf.reports, hg⟩
    | some _ =>
      have hput := hinv.put hg.1 (hg.2 ▸ hf.reports)
      exact ⟨(hput.addMapping hf.no_colon hcanonical hf.reports).addChild _ _, hg⟩

/-- Whatever `getFn` returns was made under the name it was asked for. -/
theorem Inv.getFn (hn : colon ∉ n) (hkey : Belongs n fsString)
    (hcreate : ∀ e, create = .ok e → Known env S log e.value ∧ e.value.name = n) :
    Inv env S log (c.getFn fsString create).2 ∧
      ∀ f, (c.getFn fsString create).1 = .ok f → Known env S log f ∧ f.name = n := by
  have hcanonical := h.canonicalize hn hkey
  unfold FsCache.getFn
  rcases Cache.get_cases c.cache (c.canonicalize fsString) (fun u : Unit => (create, u)) () with
    ⟨e, he, hget⟩ | ⟨-, err, -, hget⟩ | ⟨hnone, e, hmade, hget⟩
  · obtain ⟨hknown, hek⟩ := h.known _ e he
    have hname : e.value.name = n := belongs_unique hknown.no_colon hn hek hcanonical
    simp only [hget, he, Option.isNone_some, Bool.false_eq_true, if_false]
    split_ifs
    · exact ⟨h, nofun⟩
    · exact ⟨h, nofun⟩
    · exact ⟨h, fun f hf => by cases hf; exact ⟨hknown, hname⟩⟩
  · simp only [hget]
    exact ⟨h, nofun⟩
  · obtain ⟨hknown, hname⟩ := hcreate e hmade
    have hek : Belongs e.value.name (c.canonicalize fsString) := hname ▸ hcanonical
    have hstored : Inv env S log { c with cache := c.cache.keep (c.canonicalize fsString) e } :=
      ⟨h.known.keep ⟨hknown, hek⟩, h.remap⟩
    obtain ⟨hsettled, hg, hgname⟩ := hstored.settle fsString hknown hek e.err
    simp only [hget, hnone, Option.isNone_none, if_true]
    split_ifs
    · exact ⟨hstored, nofun⟩
    · exact ⟨hsettled, nofun⟩
    · exact ⟨hsettled, fun f hf => by cases hf; exact ⟨hg, hgname.trans hname⟩⟩

end

end FsCache

/-! ## The state -/

structure Backends.Inv (env : Env) (S : Set Request) (log : List (Input × Config)) (b : Backends) : Prop where
  fs : b.fs.Inv env S log
  active : ∀ key v, b.active key = some v → Known env S log v.f ∧ key = v.f.configString

structure Inv (env : Env) (S : Set Request) (s : State) : Prop where
  backends : s.backends.Inv env S s.log
  vfs : s.vfsCache.Holds fun key e => Known env S s.log e.vfs.f ∧ e.vfs.f.name = proxyName key

variable {log : List (Input × Config)} {s : State} {r : Request} {o : Outside} {b : Backends}

theorem Backends.Inv.mono (hlog : log ⊆ log') (h : b.Inv env S log) : b.Inv env S log' where
  fs := ⟨h.fs.known.mono fun _ _ hf => ⟨hf.1.mono hlog, hf.2⟩, h.fs.remap⟩
  active key v hv := ⟨(h.active key v hv).1.mono hlog, (h.active key v hv).2⟩

theorem Backends.Inv.vfsNew (h : b.Inv env S log) (hf : Known env S log f) :
    Backends.Inv env S log { b with active := (vfsNew f b.active).2 } ∧
      Known env S log (vfsNew f b.active).1.f ∧ (vfsNew f b.active).1.f.name = f.name := by
  unfold AuthProxy.vfsNew
  cases hactive : b.active f.configString with
  | some v =>
    obtain ⟨hv, hkey⟩ := h.active _ v hactive
    exact ⟨h, hv, hv.name_eq hf hv.reports (hkey ▸ hf.reports)⟩
  | none =>
    refine ⟨⟨h.fs, fun key v hv => ?_⟩, hf, rfl⟩
    dsimp only at hv
    rw [update_apply] at hv
    split_ifs at hv with hkey
    · cases hv
      exact ⟨hf, hkey⟩
    · exact h.active key v hv

theorem Backends.Inv.createEntry (h : b.Inv env S log) {n : Text} (hn : colon ∉ n) (hkey : Belongs n fsString)
    (auth : Text) (hcreate : ∀ e, create = .ok e → Known env S log e.value ∧ e.value.name = n) :
    Backends.Inv env S log (createEntry env fsString auth create b).2 ∧
      ∀ e, (createEntry env fsString auth create b).1 = .ok e → Known env S log e.value.vfs.f ∧
        e.value.vfs.f.name = n := by
  obtain ⟨hfs, hfound⟩ := h.fs.getFn hn hkey hcreate
  unfold AuthProxy.createEntry
  rcases hget : b.fs.getFn fsString create with ⟨_ | f, fs⟩
  · rw [hget] at hfs
    exact ⟨⟨hfs, h.active⟩, nofun⟩
  · rw [hget] at hfs hfound
    obtain ⟨hf, hname⟩ := hfound f rfl
    obtain ⟨hb, hv, hvname⟩ := h.vfsNew hf
    refine ⟨⟨hfs, hb.active⟩, fun e he => ?_⟩
    cases he
    exact ⟨hv, hvname.trans hname⟩

/-! ## One call -/

section

variable (hS : Separated env S) (hr : r ∈ S)

include hS hr

theorem known_of_newFs (ho : o.KeepsNames) {answer config : Config}
    (hlog : (r.input env, answer) ∈ log) {obscure : Text → Option Text}
    (hobscure : obscureFields obscure answer = some config)
    {fsName root : Text} {info : FsInfo} (htype : config typeKey = some fsName) (hfind : env.find fsName = some info)
    (hroot : config rootKey = some root) {e : Cache.Entry Fs FsErr}
    (he : newFs o info (r.fsName env) root config = .ok e) :
    Known env S log e.value ∧ e.value.name = r.fsName env := by
  have hkeeps := ho info (r.fsName env) root (withDefaults info config)
  unfold newFs at he
  dsimp only at he
  split at he
  · cases he
  all_goals
    rename_i hnew
    rw [hnew] at hkeeps
    cases he
    exact ⟨⟨⟨r, hr, answer, hlog, rfl, obscure, config, fsName, hobscure, htype, hfind, hroot, rfl⟩,
      colon_notMem_fsName hS hr, hkeeps⟩, rfl⟩

/-- What `run` returns comes from an answer that is then in the log. -/
theorem run_spec (hs : Inv env S s) :
    Inv env S (run o (r.input env) s).2 ∧ ∀ config, (run o (r.input env) s).1 = .ok config →
      ∃ answer, (r.input env, answer) ∈ (run o (r.input env) s).2.log ∧
        obscureFields o.obscure answer = some config := by
  unfold run
  rw [json_input hS hr]
  cases hanswer : o.program (r.input env) with
  | none => exact ⟨hs, nofun⟩
  | some answer =>
    have hlog : s.log ⊆ (r.input env, answer) :: s.log := subset_cons_self ..
    have hinv : Inv env S { s with log := (r.input env, answer) :: s.log } :=
      ⟨hs.backends.mono hlog, hs.vfs.mono fun _ _ he => ⟨he.1.mono hlog, he.2⟩⟩
    cases hobscure : obscureFields o.obscure answer with
    | none => exact ⟨by simpa only [hobscure] using hinv, by simp only [hobscure]; nofun⟩
    | some config =>
      simp only [hobscure]
      refine ⟨hinv, fun config' hconfig => ⟨answer, mem_cons_self .., ?_⟩⟩
      cases hconfig
      exact hobscure

section

variable (ho : o.KeepsNames) (hs : Inv env S s)

include ho hs

theorem call_spec : Inv env S (call env o r s).2 ∧ ∀ e, (call env o r s).1 = .ok e →
      Known env S (call env o r s).2.log e.vfs.f ∧ e.vfs.f.name = r.fsName env := by
  obtain ⟨hrun, hanswer⟩ := run_spec (o := o) hS hr hs
  unfold call
  rcases hres : run o (r.input env) s with ⟨_ | config, s'⟩
  · rw [hres] at hrun
    exact ⟨hrun, nofun⟩
  rw [hres] at hrun hanswer
  obtain ⟨answer, hlog, hobscure⟩ := hanswer config rfl
  dsimp only at hrun hlog ⊢
  cases htype : config typeKey with
  | none => exact ⟨hrun, nofun⟩
  | some fsName =>
  cases hroot : config rootKey with
  | none => exact ⟨hrun, nofun⟩
  | some root =>
  dsimp only
  cases hfind : env.find fsName with
  | none => exact ⟨hrun, nofun⟩
  | some info =>
  dsimp only
  obtain ⟨hbackends, hmade⟩ := hrun.backends.createEntry (colon_notMem_fsName hS hr) ⟨root, rfl⟩ r.auth
    fun e he => known_of_newFs hS hr ho hlog hobscure htype hfind hroot he
  rcases Cache.get_cases s'.vfsCache (r.cacheKey env) (createEntry env (r.fsName env ++ colon :: root) r.auth
      (newFs o info (r.fsName env) root config)) s'.backends with ⟨e, he, hget⟩ | ⟨-, err, -, hget⟩ | ⟨-, e, he, hget⟩
  · rw [hget]
    refine ⟨⟨hrun.backends, hrun.vfs⟩, fun e' he' => ?_⟩
    cases he'
    exact hrun.vfs _ e he
  · rw [hget]
    exact ⟨⟨hbackends, hrun.vfs⟩, nofun⟩
  · rw [hget]
    have hknown := hmade e he
    refine ⟨⟨hbackends, hrun.vfs.keep hknown⟩, fun e' he' => ?_⟩
    cases he'
    exact hknown

theorem entryFor_spec : Inv env S (entryFor env o r s).2 ∧ ∀ e, (entryFor env o r s).1 = .ok e →
      Known env S (entryFor env o r s).2.log e.vfs.f ∧ e.vfs.f.name = r.fsName env := by
  unfold entryFor
  cases hmaybe : s.vfsCache.getMaybe (r.cacheKey env) with
  | none => exact call_spec hS hr ho hs
  | some entry =>
    refine ⟨hs, fun e he => ?_⟩
    cases he
    exact hs.vfs.getMaybe hmaybe

theorem Call_spec : Inv env S (Call env o r s).2 ∧ ∀ v key, (Call env o r s).1 = .ok (v, key) →
      Known env S (Call env o r s).2.log v.f ∧ v.f.name = r.fsName env := by
  obtain ⟨hinv, hentry⟩ := entryFor_spec hS hr ho hs
  unfold Call
  rcases hres : entryFor env o r s with ⟨_ | entry, s'⟩
  · rw [hres] at hinv
    exact ⟨hinv, nofun⟩
  · rw [hres] at hinv hentry
    dsimp only at hinv hentry ⊢
    by_cases hpw : env.sha256 r.auth = entry.pwHash
    · rw [if_neg (not_not.mpr hpw)]
      refine ⟨hinv, fun v key hv => ?_⟩
      cases hv
      exact hentry entry rfl
    · rw [if_pos hpw]
      exact ⟨hinv, nofun⟩

end

end

/-! ## Whole runs -/

/-- The logins of an event are among the requests `S`, and their backends keep their names. -/
def Event.Within (S : Set Request) : Event → Prop
  | .login r o => r ∈ S ∧ o.KeepsNames
  | .expireVfs _ | .expireFs _ | .endVfs _ => True

theorem inv_start (env : Env) (S : Set Request) (noCache : Bool) : Inv env S (start noCache) where
  backends := ⟨⟨Cache.holds_empty _, nofun⟩, nofun⟩
  vfs := Cache.holds_empty _

theorem inv_step (hS : Separated env S) (hs : Inv env S s) {e : Event} (he : e.Within S) :
    Inv env S (step env s e) := by
  cases e with
  | login r o => exact (Call_spec hS he.1 he.2 hs).1
  | expireVfs key => exact ⟨hs.backends, hs.vfs.remove key⟩
  | expireFs key => exact ⟨⟨⟨hs.backends.fs.known.remove key, hs.backends.fs.remap⟩, hs.backends.active⟩, hs.vfs⟩
  | endVfs key =>
    refine ⟨⟨hs.backends.fs, fun k v hv => ?_⟩, hs.vfs⟩
    dsimp only [step] at hv
    rw [update_apply] at hv
    split_ifs at hv
    exact hs.backends.active k v hv

theorem inv_after (hS : Separated env S) (noCache : Bool) {events : List Event} (h : ∀ e ∈ events, e.Within S) :
    Inv env S (after env noCache events) := by
  unfold after
  have hinv := inv_start env S noCache
  generalize start noCache = s at hinv
  induction events generalizing s with
  | nil => exact hinv
  | cons e events ih =>
    exact ih (fun e' he' => h e' (mem_cons_of_mem _ he')) _ (inv_step hS hinv (h e (mem_cons_self ..)))

theorem Call_isolated (hmac : MacInjective env S) (hS : Separated env S) (hr : r ∈ S) (ho : o.KeepsNames)
    (hs : Inv env S s) {v : Vfs} (h : (Call env o r s).1 = .ok (v, key)) :
    ∃ answer, (r.input env, answer) ∈ (Call env o r s).2.log ∧ BuiltFor env v.f r answer := by
  obtain ⟨hknown, hname⟩ := (Call_spec hS hr ho hs).2 v key h
  obtain ⟨r', hr', answer, hlog, hbuilt⟩ := hknown.built
  have hnames : r.fsName env = r'.fsName env := hname.symm.trans hbuilt.name
  rw [input_eq_of_fsName_eq hS hmac hr hr' hnames]
  exact ⟨answer, hlog, hname, hbuilt.described⟩

/-- A VFS is handed out only if the program has accepted exactly this request, and it is made from such an answer; so a
password login succeeds only if the program has accepted the password as a password. -/
theorem logins_isolated (hmac : MacInjective env S) (hS : Separated env S) (noCache : Bool) {events : List Event}
    (hevents : ∀ e ∈ events, e.Within S) (ho : o.KeepsNames) :
    (∀ r ∈ S, ∀ v key, (Call env o r (after env noCache events)).1 = .ok (v, key) →
      ∃ answer, (r.input env, answer) ∈ (Call env o r (after env noCache events)).2.log ∧ BuiltFor env v.f r answer) ∧
    ∀ srv : SftpServer, srv.isProxy = true →
      ∀ (c : ConnMetadata) (pass : Text), ⟨c.user, pass, false, c.remoteAddr⟩ ∈ S →
      (passwordCallback env srv o c pass (after env noCache events)).1.isSome = true →
      ∃ i answer, (i, answer) ∈ (passwordCallback env srv o c pass (after env noCache events)).2.log ∧
        i.user = c.user ∧ i.pass = some pass := by
  have hinv := inv_after hS noCache hevents
  refine ⟨fun r hr v key h => Call_isolated hmac hS hr ho hinv h, fun srv hsrv c pass hr h => ?_⟩
  unfold passwordCallback at h ⊢
  rw [if_pos hsrv] at h ⊢
  rcases hcall : Call env o ⟨c.user, pass, false, c.remoteAddr⟩ (after env noCache events) with ⟨_ | ⟨v, key⟩, s'⟩
  · rw [hcall] at h
    cases h
  · obtain ⟨answer, hlog, -⟩ := Call_isolated hmac hS hr ho hinv (congrArg Prod.fst hcall)
    rw [hcall] at hlog
    exact ⟨_, answer, hlog, rfl, rfl⟩

/-- Hashes that are the start of their input, and one kind of backend without options. -/
def plainEnv : Env where
  ipFromAddr := id
  sha256 := id
  mac s := (s ++ List.replicate 8 0).take 8
  length_mac s := by simp
  find _ := some ⟨[]⟩

def plainAnswer : Config := fun key => if key = typeKey ∨ key = rootKey then some [] else none

/-- A program that knows public keys only. -/
def keysOnly : Outside where
  program i := if i.publicKey.isSome then some plainAnswer else none
  obscure := some
  newFs _ name root _ := .dir (name ++ colon :: root)

theorem keepsNames_keysOnly : keysOnly.KeepsNames := fun _ _ root _ => ⟨root, rfl⟩

def keyLogin : Request := ⟨ascii ['b'], ascii ['k'], true, []⟩

theorem separated_keyLogin : Separated plainEnv {keyLogin} where
  same_kind := by rintro r rfl r' rfl - - -; rfl
  no_colon := by rintro r rfl; decide
  no_nul := by rintro r rfl; decide
  valid_user := by rintro r rfl; exact Utf8.valid_chars ['b']
  valid_auth := by rintro r rfl; exact Utf8.valid_chars ['k']
  valid_ip := by rintro r rfl; exact Utf8.valid_chars []

theorem logins_isolated_twice : ∃ v key answer,
    (Call plainEnv keysOnly keyLogin (after plainEnv false [.login keyLogin keysOnly])).1 = .ok (v, key) ∧
      (keyLogin.input plainEnv, answer) ∈
        (Call plainEnv keysOnly keyLogin (after plainEnv false [.login keyLogin keysOnly])).2.log ∧
      BuiltFor plainEnv v.f keyLogin answer := by
  have hmac : MacInjective plainEnv {keyLogin} := by
    rintro x ⟨r, rfl, rfl⟩ y ⟨r', rfl, rfl⟩ -
    rfl
  have hevents : ∀ e ∈ [Event.login keyLogin keysOnly], e.Within {keyLogin} := by
    intro e he
    rw [mem_singleton.mp he]
    exact ⟨rfl, keepsNames_keysOnly⟩
  obtain ⟨answer, hlog, hbuilt⟩ := (logins_isolated hmac separated_keyLogin false hevents keepsNames_keysOnly).1
    keyLogin rfl _ _ rfl
  exact ⟨_, _, answer, rfl, hlog, hbuilt⟩

/-! ## A key that is used as a password -/

/-- A client offers a key the program knows, signs nothing, and logs in with the text of the key as its password. -/
theorem offered_key_opens_password_login :
    let srv : SftpServer := ⟨true, [], [], fun _ => false⟩
    let conn : ConnMetadata := ⟨ascii ['b'], []⟩
    let s := (publicKeyCallback plainEnv srv keysOnly conn [1, 2, 3] (start false)).2
    (passwordCallback plainEnv srv keysOnly conn (base64 [1, 2, 3]) s).1.isSome = true ∧
      ∀ e ∈ (passwordCallback plainEnv srv keysOnly conn (base64 [1, 2, 3]) s).2.log, e.1.pass = none := by
  refine ⟨rfl, fun e he => ?_⟩
  rw [mem_singleton.mp he]
  rfl

end ZClone.AuthProxy
