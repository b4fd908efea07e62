import ExactDaemon.Lib.Prog
import ExactDaemon.Lib.Posix
import ExactDaemon.Lib.Regex

/-! # The state of the daemon

One record holds the globals of every source file, the file system, the clock
and the alarm. `flushes` are the choices of stdio: how many buffered bytes each
successive `fprintf` writes out at once.
-/

namespace ExactDaemon

def matchLoginUsernameMax : ℕ := 255
def matchLoginHostnameMax : ℕ := 255

/-! ### auth.c -/

/-- An entry in the authentication database. The hostname is what its array of
`matchLoginHostnameMax` bytes holds up to a NUL or up to the end. -/
structure AuthEntry where
  hostname : CStr
  t : ℤ
  deriving DecidableEq, Repr

/-- The hostname's array has room for its NUL. -/
def AuthEntry.Terminated (e : AuthEntry) : Prop := e.hostname.length < matchLoginHostnameMax

instance (e : AuthEntry) : Decidable e.Terminated :=
  inferInstanceAs (Decidable (e.hostname.length < matchLoginHostnameMax))

/-- The authentication tables: two heap blocks, of which `auth` points to the one in
use. `fresh` is what new memory in each block happens to contain. -/
structure Tables where
  mem : ℕ → List AuthEntry
  auth : ℕ
  shadowAuth : ℕ
  authMax : ℕ
  authCur : ℕ
  authAlarm : ℤ
  fresh : ℕ → ℕ → AuthEntry

/-- The entries `auth[0..auth_cur)`. -/
def Tables.table (tb : Tables) : List AuthEntry := (tb.mem tb.auth).take tb.authCur

/-- A record of the Berkeley database. -/
structure DbRecord where
  key : Bytes
  time : ℤ
  deriving DecidableEq, Repr

structure Db where
  records : List DbRecord

/-! ### conffile.c -/

/-- A parameter; `literal` marks a name that is a string literal, not a heap block. -/
structure Param where
  name : CStr
  value : CStr
  literal : Bool
  deriving DecidableEq, Repr

structure Conf where
  filename : CStr
  param : List Param

/-! ### apconf.c -/

inductive SectionType | null | ignore | stanza | eof
  deriving DecidableEq, Repr

structure Section where
  t : SectionType
  name : Option CStr
  order : Option CStr
  pattern : Option CStr
  deriving DecidableEq, Repr

/-! ### tail.c -/

/-- `tailBuff` is the block that `tail_buff` points to, `none` for `NULL`. -/
structure Tail where
  f : Option ℕ
  paws : ℕ
  last : ℤ
  tailBuff : Option Bytes
  tailBufflen : ℕ

structure World where
  fs : Fs
  clock : ℤ
  flushes : List ℕ
  /-- The seconds given to the last `alarm`. -/
  alarm : ℕ
  conf : Conf
  /-- The static section of `parse_rule_section`. -/
  staticSection : Section
  patbuf : Option Regex
  tables : Tables
  db : Db
  tail : Tail

namespace World

/-- `conffile_param`: the value of the first parameter with the name, or `NULL`. -/
def conffileParam (w : World) (name : CStr) : Option CStr :=
  (w.conf.param.find? fun p => strcmp name p.name = 0).map (·.value)

/-- `conffile_param_int`. -/
def conffileParamInt (w : World) (name : CStr) : Except Halt ℤ :=
  match w.conffileParam name with
  | none => .error (.exit 52)
  | some s => .ok (atoi s)

theorem conffileParam_congr {s t : World} (h : s.conf = t.conf) :
    s.conffileParam = t.conffileParam := by
  funext name
  rw [conffileParam, h]
  rfl

/-- `fopen (path, "w")`, which fails for a `NULL` path. -/
def fopenWrite (w : World) : Option CStr → Except Halt (Option ℕ × World)
  | none => .ok (none, w)
  | some path =>
    match w.fs.openWrite path with
    | none => .ok (none, w)
    | some (fd, fs) => .ok (some fd, { w with fs := fs })

/-- `fprintf`, with stdio's choice of how much to write out. -/
def fprintf (w : World) (fd : ℕ) (bs : Bytes) : World :=
  { w with fs := w.fs.put fd bs (w.flushes.headD 0), flushes := w.flushes.tail }

def fclose (w : World) (fd : ℕ) : World := { w with fs := w.fs.close fd }

/-- The daemon at its start, with the parameters it has read: the tables are not
allocated, no file exists and every file can be written. -/
def boot (param : List Param) : World where
  fs := ⟨fun _ => none, fun _ => [], fun _ => ⟨0, 0, []⟩, 0, 3, fun _ => true⟩
  clock := 0
  flushes := []
  alarm := 0
  conf := ⟨[], param⟩
  staticSection := ⟨.null, none, none, none⟩
  patbuf := none
  tables := ⟨fun _ => [], 0, 1, 16384, 0, 0, fun _ _ => ⟨[], 0⟩⟩
  db := ⟨[]⟩
  tail := ⟨none, 0, 0, none, 0⟩

/-- A further file, with these contents. -/
def withFile (w : World) (path : CStr) (bs : Bytes) : World :=
  { w with fs := { w.fs with
      dir := Function.update w.fs.dir path (some w.fs.nextIno)
      data := Function.update w.fs.data w.fs.nextIno bs
      nextIno := w.fs.nextIno + 1 } }

end World

end ExactDaemon
