import ZClone.Lib.Cache
import ZClone.Lib.Hex
import ZClone.Lib.Path
import ZClone.Lib.Utf8

/-!
# The auth proxy

`Proxy.Call` turns a login into a VFS. It asks an external program, which answers with the configuration of a backend,
and remembers what came of it in several places:

- the proxy's own `vfsCache`, under a key made of the user, the credential and the client's address;
- the cache of backends (`getFn`), under the name and root the backend was asked for and the one it reports;
- the VFSes in use (`vfsNew`), under what their backend reports.

`log` is what the program has accepted so far; the source keeps no such list.
-/

namespace ZClone.AuthProxy

open Paths

abbrev Config := Text → Option Text

/-! ## The program -/

/-- What the program is asked. -/
structure Input where
  user : Text
  publicKey : Option Text
  pass : Option Text
  clientIP : Option Text
  deriving DecidableEq

/-- A string as it comes out of `json.Marshal`: bytes that are not UTF-8 become the replacement character. -/
def jsonText (s : Text) : Text := (Utf8.symbols s).flatMap fun x => Utf8.encodeRune x.rune

def Input.json (i : Input) : Input :=
  ⟨jsonText i.user, i.publicKey.map jsonText, i.pass.map jsonText, i.clientIP.map jsonText⟩

/-- How the creation of a backend ends: with an error, or with the name and root it reports. -/
inductive NewFs where
  | failed
  | dir (configString : Text)
  | file (configString : Text)

/-- An option of a backend with the text of its default, empty when there is none. -/
structure FsInfo where
  options : List (Text × Text)

/-- What is outside of the process during one call. -/
structure Outside where
  /-- The program's answer, `none` when it fails or prints something else. -/
  program : Input → Option Config
  obscure : Text → Option Text
  newFs : FsInfo → Text → Text → Config → NewFs

/-- What does not change while the process runs. -/
structure Env where
  ipFromAddr : Text → Text
  sha256 : Text → Text
  /-- The first eight bytes of the HMAC under the key of the process. -/
  mac : Text → Text
  length_mac : ∀ s, (mac s).length = 8
  find : Text → Option FsInfo

def typeKey : Text := ascii ['t', 'y', 'p', 'e']

def rootKey : Text := ascii "_root".toList

def obscureKey : Text := ascii "_obscure".toList

def comma : UInt8 := 0x2C

def colon : UInt8 := 0x3A

def Config.set (config : Config) (key value : Text) : Config := Function.update config key (some value)

/-- Obscures the values the program has asked to be obscured. -/
def obscureFields (obscure : Text → Option Text) (config : Config) : Option Config :=
  match config obscureKey with
  | none => some config
  | some fields => (fields.splitOn comma).foldlM (fun config key =>
      match config key with
      | none => some config
      | some value => (obscure value).map (config.set key)) config

def withDefaults (info : FsInfo) (config : Config) : Config :=
  info.options.foldl (fun config o => if config o.1 = none ∧ o.2 ≠ [] then config.set o.1 o.2 else config) config

/-! ## The cache of backends -/

inductive FsErr where
  | isFile
  | other
  deriving DecidableEq

/-- A backend: what it was built from, and the name and root it reports. -/
structure Fs where
  info : FsInfo
  name : Text
  root : Text
  config : Config
  configString : Text

structure FsCache where
  cache : Cache Text Fs FsErr
  remap : Text → Option Text
  childParentMap : Text → Option Text

namespace FsCache

def canonicalize (c : FsCache) (fsString : Text) : Text := (c.remap fsString).getD fsString

def addMapping (c : FsCache) (fsString canonicalName : Text) : FsCache :=
  if canonicalName = fsString then c else { c with remap := Function.update c.remap fsString (some canonicalName) }

def addChild (c : FsCache) (child parent : Text) : FsCache :=
  if child = parent then c else { c with childParentMap := Function.update c.childParentMap child (some parent) }

def put (c : FsCache) (fsString : Text) (f : Fs) : FsCache :=
  { c with cache := c.cache.put f.configString f }.addMapping fsString f.configString

/-- Moves a backend that has just been created to the name it reports. -/
def settle (c : FsCache) (fsString canonical : Text) (f : Fs) (err : Option FsErr) : Fs × FsCache :=
  if f.configString = canonical then (f, c)
  else
    let renamed := c.cache.rename canonical f.configString
    let g := renamed.1.getD f
    let c := { c with cache := renamed.2 }
    match err with
    | none => (g, c.addMapping canonical f.configString)
    | some _ =>
      -- a file: the backend of its parent is what is kept
      (g, ((c.put f.configString g).addMapping canonical f.configString).addChild fsString f.configString)

/-- `GetFn` of the backend cache. -/
def getFn (c : FsCache) (fsString : Text) (create : Except FsErr (Cache.Entry Fs FsErr)) : Except FsErr Fs × FsCache :=
  let canonical := c.canonicalize fsString
  let created := (c.cache.entries canonical).isNone
  match c.cache.get canonical (fun u : Unit => (create, u)) () with
  | (.error e, cache, _) => (.error e, { c with cache := cache })
  | (.ok entry, cache, _) =>
    let c := { c with cache := cache }
    if entry.err = some .other then (.error .other, c)
    else
      let settled := if created then c.settle fsString canonical entry.value entry.err else (entry.value, c)
      if (settled.2.childParentMap fsString).isSome then (.error .isFile, settled.2) else (.ok settled.1, settled.2)

end FsCache

/-! ## VFSes in use -/

structure Vfs where
  f : Fs

/-- `vfs.New` under the options of the proxy: a VFS whose backend reports the same name is used again. -/
def vfsNew (f : Fs) (active : Text → Option Vfs) : Vfs × (Text → Option Vfs) :=
  match active f.configString with
  | some v => (v, active)
  | none => (⟨f⟩, Function.update active f.configString (some ⟨f⟩))

structure Backends where
  fs : FsCache
  active : Text → Option Vfs

/-! ## The proxy -/

inductive Err where
  | proxyFailed
  | obscureFailed
  | typeNotSet
  | rootNotSet
  | noBackend
  | createBackend (e : FsErr)
  | incorrectPublicKey
  | incorrectPassword
  deriving DecidableEq

structure CacheEntry where
  vfs : Vfs
  pwHash : Text

structure State where
  backends : Backends
  vfsCache : Cache Text CacheEntry Err
  log : List (Input × Config)

structure Request where
  user : Text
  auth : Text
  isPublicKey : Bool
  remoteAddr : Text
  deriving DecidableEq

variable (env : Env)

def Request.clientIP (r : Request) : Text := env.ipFromAddr r.remoteAddr

def Request.input (r : Request) : Input where
  user := r.user
  publicKey := if r.isPublicKey then some r.auth else none
  pass := if r.isPublicKey then none else some r.auth
  clientIP := if r.clientIP env = [] then none else some (r.clientIP env)

def macInput (auth clientIP : Text) : Text := auth ++ 0 :: clientIP

def generateCacheKey (user auth clientIP : Text) : Text := user ++ dash :: Hex.encode (env.mac (macInput auth clientIP))

def Request.cacheKey (r : Request) : Text := generateCacheKey env r.user r.auth (r.clientIP env)

/-- The name a backend is created under. -/
def proxyName (cacheKey : Text) : Text := ascii "proxy-".toList ++ cacheKey

def Request.fsName (r : Request) : Text := proxyName (r.cacheKey env)

/-- `run` asks the program. -/
def run (o : Outside) (i : Input) (s : State) : Except Err Config × State :=
  match o.program i.json with
  | none => (.error .proxyFailed, s)
  | some config =>
    let s := { s with log := (i.json, config) :: s.log }
    match obscureFields o.obscure config with
    | none => (.error .obscureFailed, s)
    | some config => (.ok config, s)

/-- The backend made from a configuration. -/
def newFs (o : Outside) (info : FsInfo) (name root : Text) (config : Config) : Except FsErr (Cache.Entry Fs FsErr) :=
  let config := withDefaults info config
  match o.newFs info name root config with
  | .failed => .error .other
  | .dir configString => .ok ⟨⟨info, name, root, config, configString⟩, none⟩
  | .file configString => .ok ⟨⟨info, name, root, config, configString⟩, some .isFile⟩

/-- What the proxy's cache creates for a key it does not hold. -/
def createEntry (fsString auth : Text) (create : Except FsErr (Cache.Entry Fs FsErr)) (b : Backends) :
    Except Err (Cache.Entry CacheEntry Err) × Backends :=
  match b.fs.getFn fsString create with
  | (.error e, fs) => (.error (.createBackend e), { b with fs := fs })
  | (.ok f, fs) =>
    let made := vfsNew f b.active
    (.ok ⟨⟨made.1, env.sha256 auth⟩, none⟩, ⟨fs, made.2⟩)

section

variable (o : Outside) (r : Request) (s : State)

/-- `call` asks the program and makes the VFS its answer describes. -/
def call : Except Err CacheEntry × State :=
  match run o (r.input env) s with
  | (.error e, s) => (.error e, s)
  | (.ok config, s) =>
    match config typeKey with
    | none => (.error .typeNotSet, s)
    | some fsName =>
      match config rootKey with
      | none => (.error .rootNotSet, s)
      | some root =>
        match env.find fsName with
        | none => (.error .noBackend, s)
        | some info =>
          let create := newFs o info (r.fsName env) root config
          match s.vfsCache.get (r.cacheKey env)
              (createEntry env (r.fsName env ++ colon :: root) r.auth create) s.backends with
          | (.error e, cache, b) => (.error e, { s with vfsCache := cache, backends := b })
          | (.ok entry, cache, b) => (.ok entry.value, { s with vfsCache := cache, backends := b })

/-- The entry for a request: the one that is cached, or else a fresh answer. -/
def entryFor : Except Err CacheEntry × State :=
  match s.vfsCache.getMaybe (r.cacheKey env) with
  | some entry => (.ok entry, s)
  | none => call env o r s

def Call : Except Err (Vfs × Text) × State :=
  match entryFor env o r s with
  | (.error e, s) => (.error e, s)
  | (.ok entry, s) =>
    if env.sha256 r.auth ≠ entry.pwHash then
      (.error (if r.isPublicKey then .incorrectPublicKey else .incorrectPassword), s)
    else (.ok (entry.vfs, r.cacheKey env), s)

end

/-! ## What happens over time -/

/-- A login, or the end of an entry of one of the caches. -/
inductive Event where
  | login (r : Request) (o : Outside)
  | expireVfs (key : Text)
  | expireFs (fsString : Text)
  | endVfs (configString : Text)

def step (s : State) : Event → State
  | .login r o => (Call env o r s).2
  | .expireVfs key => { s with vfsCache := s.vfsCache.remove key }
  | .expireFs key => { s with backends.fs.cache := s.backends.fs.cache.remove key }
  | .endVfs key => { s with backends.active := Function.update s.backends.active key none }

/-- A process that has just started; its backend cache may be switched off. -/
def start (noCache : Bool) : State where
  backends := ⟨⟨.empty noCache, fun _ => none, fun _ => none⟩, fun _ => none⟩
  vfsCache := .empty false
  log := []

def after (noCache : Bool) (events : List Event) : State := events.foldl (step env) (start noCache)

/-! ## The SFTP server -/

def base64Digit (n : Nat) : UInt8 :=
  .ofNat (if n < 26 then 0x41 + n else if n < 52 then 0x61 + (n - 26) else if n < 62 then 0x30 + (n - 52)
    else if n = 62 then 0x2B else 0x2F)

/-- `base64.StdEncoding`. -/
def base64 : Text → Text
  | a :: b :: c :: rest =>
    let n := a.toNat * 65536 + b.toNat * 256 + c.toNat
    base64Digit (n / 262144) :: base64Digit (n / 4096 % 64) :: base64Digit (n / 64 % 64) :: base64Digit (n % 64) ::
      base64 rest
  | [a, b] =>
    let n := a.toNat * 1024 + b.toNat * 4
    [base64Digit (n / 4096), base64Digit (n / 64 % 64), base64Digit (n % 64), 0x3D]
  | [a] => [base64Digit (a.toNat / 4), base64Digit (a.toNat % 4 * 16), 0x3D, 0x3D]
  | [] => []

structure ConnMetadata where
  user : Text
  remoteAddr : Text

/-- What the callbacks read of the server. -/
structure SftpServer where
  isProxy : Bool
  user : Text
  pass : Text
  authorizedKeys : Text → Bool

inductive Permissions where
  | vfsKey (key : Text)
  | pubkeyFp (key : Text)
  | none

variable (srv : SftpServer)

def passwordCallback (o : Outside) (c : ConnMetadata) (pass : Text) (s : State) : Option Permissions × State :=
  if srv.isProxy then
    match Call env o ⟨c.user, pass, false, c.remoteAddr⟩ s with
    | (.error _, s) => (none, s)
    | (.ok (_, vfsKey), s) => (some (.vfsKey vfsKey), s)
  else if srv.user ≠ [] ∧ srv.pass ≠ [] ∧ c.user = srv.user ∧ pass = srv.pass then (some .none, s)
  else (none, s)

/-- The key is only offered: nothing has been signed with it yet. -/
def publicKeyCallback (o : Outside) (c : ConnMetadata) (pubKey : Text) (s : State) : Option Permissions × State :=
  if srv.isProxy then
    match Call env o ⟨c.user, base64 pubKey, true, c.remoteAddr⟩ s with
    | (.error _, s) => (none, s)
    | (.ok (_, vfsKey), s) => (some (.vfsKey vfsKey), s)
  else if srv.authorizedKeys pubKey then (some (.pubkeyFp pubKey), s)
  else (none, s)

end ZClone.AuthProxy
