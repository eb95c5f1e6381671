import LtlFuzzer.Foundation.Channels
import LtlFuzzer.Service.SubmitTrace

/-! Events that fuzzed programs log to files, and the traces loaded back for submission. -/
namespace LtlFuzzer.Experiment
open Foundation Delimiters Channels Service

/-- The names on the way from the root to a file, on a file system without links. -/
abbrev Path := List Str

inductive Node where
  | dir
  | file (bytes : Str)
  deriving DecidableEq

abbrev Files := Path → Option Node

def savedir : Str := "trace".toList

/-- One name of a path. Nothing is above the root; a relative path can begin with steps up. -/
def cleanStep (rooted : Bool) (path : Path) (name : Str) : Path :=
  if name = [] || name = ['.'] then path
  else if name = ['.', '.'] then
    match path.getLast? with
    | none => if rooted then [] else [name]
    | some last => if last = ['.', '.'] then path ++ [name] else path.dropLast
  else path ++ [name]

/-- filepath.Join, for a relative directory. -/
def filepathJoin (dir fn : Str) : Str :=
  let path := (dir.splitOn '/' ++ fn.splitOn '/').foldl (cleanStep false) []
  if path = [] then ['.'] else ['/'].intercalate path

/-- The file that a name stands for in a working directory. -/
def resolve (cwd : Path) (name : Str) : Path :=
  (name.splitOn '/').foldl (cleanStep true) (if name.head? = some '/' then [] else cwd)

/-- RemoveAll and MkdirAll on the directory of traces. -/
def init (cwd : Path) (files : Files) : Files := fun path =>
  if path = resolve cwd savedir then some .dir else if resolve cwd savedir <+: path then none else files path

def content (files : Files) (path : Path) : Str :=
  match files path with
  | some (.file bytes) => bytes
  | _ => []

/-- A session of one logger: its file name and the events logged in it. -/
structure Session where
  fn : Str
  events : List Str

def Session.fileName (s : Session) : Str := filepathJoin savedir s.fn

def Session.path (s : Session) (cwd : Path) : Path := resolve cwd s.fileName

/-- Opened with O_CREATE, a missing file begins empty if its directory is there; a directory cannot
be opened. What else the system permits (the length of names, access rights) is an argument. -/
def openFile (permits : Path → Bool) (path : Path) (files : Files) : Option Files :=
  match files path with
  | some .dir => none
  | some (.file _) => if permits path then some files else none
  | none =>
    if permits path ∧ files path.dropLast = some .dir then some (Function.update files path (some (.file []))) else none

/-- Opened with O_APPEND, a file is written at its end. -/
def writeEvent (path : Path) (files : Files) (event : Str) : Files :=
  Function.update files path (some (.file (content files path ++ (event ++ [',']))))

/-- From an opened file to the return of Stop: the caller of LogEvent and the goroutine that drains
the channel take their steps in the order of the schedule. -/
def runSession (cwd : Path) (files : Files) (s : Session) (acts : List Act) : Option Files := do
  let p ← run 100 (writeEvent (s.path cwd)) s.events files acts
  if p.finished then some p.out else none

/-- The reading loop. A call of Read returns at least one byte and at most the buffer's 1024. -/
def readLoop (lens : Nat → Fin 1024) : Nat → Nat → Str → Str → Str
  | 0, _, _, trace => trace
  | fuel + 1, i, rest, trace =>
    if rest = [] then trace
    else readLoop lens fuel (i + 1) (rest.drop (lens i + 1)) (trace ++ rest.take (lens i + 1))

/-- None where there is no file to read. -/
def loadTrace (cwd : Path) (files : Files) (fn : Str) (lens : Nat → Fin 1024) : Option Str :=
  match files (resolve cwd fn) with
  | some (.file bytes) => some (readLoop lens bytes.length 0 bytes [])
  | _ => none

/-- A session with the order of its steps, and the sizes that its trace is read back in. -/
structure Logged where
  session : Session
  acts : List Act
  lens : Nat → Fin 1024

/-- The traces loaded, each right after its session. Where Start cannot open the file it ends the
process, and nothing is loaded from then on. -/
def history (permits : Path → Bool) (cwd : Path) : Files → List Logged → Option (List Str)
  | _, [] => some []
  | files, l :: ls =>
    match openFile permits (l.session.path cwd) files with
    | none => some []
    | some opened => do
      let files ← runSession cwd opened l.session l.acts
      let trace ← loadTrace cwd files l.session.fileName l.lens
      let traces ← history permits cwd files ls
      return trace :: traces

/-- Every byte is read, in calls of any sizes. -/
theorem readLoop_eq (lens : Nat → Fin 1024) (fuel i : Nat) (rest trace : Str) (h : rest.length ≤ fuel) :
    readLoop lens fuel i rest trace = trace ++ rest := by
  induction fuel generalizing i rest trace with
  | zero => rw [readLoop, List.length_eq_zero_iff.mp (Nat.le_zero.mp h), List.append_nil]
  | succ fuel ih =>
    rw [readLoop]
    split_ifs with hrest
    · rw [hrest, List.append_nil]
    · rw [ih, List.append_assoc, List.take_append_drop]
      rw [List.length_drop]
      omega

theorem content_of_file {files : Files} {path : Path} {bytes : Str} (h : files path = some (.file bytes)) :
    content files path = bytes := by
  rw [content, h]

/-- Whether Start gets its file. -/
def Opens (permits : Path → Bool) (files : Files) (path : Path) : Prop := ∃ opened, openFile permits path files = some opened

theorem opens_iff {permits : Path → Bool} {files : Files} {path : Path} : Opens permits files path ↔
    permits path = true ∧ ((∃ bytes, files path = some (.file bytes)) ∨ files path = none ∧ files path.dropLast = some .dir) := by
  cases hnode : files path with
  | none => by_cases hpermits : permits path = true <;> simp [Opens, openFile, hnode, hpermits]
  | some node => cases node <;> by_cases hpermits : permits path = true <;> simp [Opens, openFile, hnode, hpermits]

/-- Opening makes a file, with what it had in it, and leaves all other paths alone. -/
theorem openFile_spec {permits : Path → Bool} {files opened : Files} {path : Path} (h : openFile permits path files = some opened) :
    opened path = some (.file (content files path)) ∧ files path ≠ some .dir ∧ ∀ other ≠ path, opened other = files other := by
  cases hnode : files path with
  | none =>
    simp only [openFile, hnode, Option.ite_none_right_eq_some, Option.some_inj] at h
    rw [← h.2]
    refine ⟨?_, Option.some_ne_none _ |>.symm, fun other hne => Function.update_of_ne hne _ _⟩
    rw [Function.update_self, content, hnode]
  | some node => cases node with
    | dir =>
      rw [openFile, hnode] at h
      cases h
    | file bytes =>
      simp only [openFile, hnode, Option.ite_none_right_eq_some, Option.some_inj] at h
      rw [← h.2]
      refine ⟨?_, by simp, fun _ _ => rfl⟩
      rw [hnode, content_of_file hnode]

/-- The events of a session behind what its file already had. -/
def appended (files : Files) (path : Path) (events : List Str) : Files :=
  Function.update files path (some (.file (content files path ++ terminated [','] events)))

theorem content_appended_self (files : Files) (path : Path) (events : List Str) :
    content (appended files path events) path = content files path ++ terminated [','] events := by
  simp [content, appended]

theorem content_appended_of_ne (files : Files) {path other : Path} (h : other ≠ path) (events : List Str) :
    content (appended files path events) other = content files other := by
  simp [content, appended, Function.update_of_ne h]

private theorem foldl_writeEvent {permits : Path → Bool} {files opened : Files} {path : Path}
    (h : openFile permits path files = some opened) (events : List Str) :
    events.foldl (writeEvent path) opened = appended files path events := by
  obtain ⟨hfile, -, hother⟩ := openFile_spec h
  induction events using List.reverseRecOn with
  | nil =>
    funext other
    by_cases he : other = path
    · rw [he, List.foldl_nil, hfile]
      simp [appended]
    · rw [List.foldl_nil, hother other he, appended, Function.update_of_ne he]
  | append_singleton events e ih =>
    rw [List.foldl_append, ih, List.foldl_cons, List.foldl_nil, writeEvent, content_appended_self, appended, appended]
    simp

/-- In every order of the two ends' steps the session's events are written, in their order. -/
theorem runSession_eq {permits : Path → Bool} {cwd : Path} {files opened files' : Files} {s : Session} {acts : List Act}
    (hopen : openFile permits (s.path cwd) files = some opened) (h : runSession cwd opened s acts = some files') :
    files' = appended files (s.path cwd) s.events := by
  obtain ⟨p, hp, h⟩ := Option.bind_eq_some_iff.mp h
  split at h
  · cases h
    rw [out_of_finished hp ‹_›, foldl_writeEvent hopen]
  · cases h

/-- However a session has begun, it can be completed. -/
theorem exists_runSession (cwd : Path) (files : Files) (s : Session) (begun : List Act) {p : Pipe Str Files}
    (h : run 100 (writeEvent (s.path cwd)) s.events files begun = some p) :
    ∃ more files', runSession cwd files s (begun ++ more) = some files' := by
  obtain ⟨more, p', hr, hf⟩ := exists_finish (writeEvent (s.path cwd)) (by omega : 0 < 100) p
  refine ⟨more, p'.out, ?_⟩
  rw [run] at h
  simp [runSession, run, List.foldlM_append, h, hr, hf]

theorem loadTrace_appended (cwd : Path) (files : Files) (s : Session) (lens : Nat → Fin 1024) :
    loadTrace cwd (appended files (s.path cwd) s.events) s.fileName lens =
      some (content files (s.path cwd) ++ terminated [','] s.events) := by
  rw [loadTrace, ← Session.path, appended, Function.update_self]
  dsimp only
  rw [readLoop_eq _ _ _ _ _ (Nat.le_refl _), List.nil_append]

/-- Sessions in a row can all be completed and their traces loaded, until a file cannot be opened. -/
theorem exists_history (permits : Path → Bool) (cwd : Path) (files : Files) (sessions : List Session) (lens : Nat → Fin 1024) :
    ∃ ls traces, ls.map Logged.session = sessions ∧ history permits cwd files ls = some traces := by
  induction sessions generalizing files with
  | nil => exact ⟨[], [], rfl, rfl⟩
  | cons s sessions ih =>
    cases hopen : openFile permits (s.path cwd) files with
    | none =>
      refine ⟨(s :: sessions).map fun r => ⟨r, [], lens⟩, [], ?_, ?_⟩
      · rw [List.map_map]
        exact List.map_id _
      · rw [List.map_cons, history, hopen]
    | some opened =>
      obtain ⟨acts, files', hrun⟩ := exists_runSession cwd opened s [] rfl
      rw [List.nil_append] at hrun
      obtain ⟨ls, traces, hls, hrest⟩ := ih files'
      obtain ⟨trace, htrace⟩ : ∃ trace, loadTrace cwd files' s.fileName lens = some trace :=
        ⟨_, runSession_eq hopen hrun ▸ loadTrace_appended cwd files s lens⟩
      refine ⟨⟨s, acts, lens⟩ :: ls, trace :: traces, by rw [List.map_cons, hls], ?_⟩
      simp [history, hopen, hrun, htrace, hrest]

/-- Every session's file can be opened and has nothing in it before, and none but empty sessions share a file. -/
structure OwnFiles (permits : Path → Bool) (cwd : Path) (files : Files) (sessions : List Session) : Prop where
  opens : ∀ s ∈ sessions, Opens permits files (s.path cwd)
  empty : ∀ s ∈ sessions, content files (s.path cwd) = []
  own : sessions.Pairwise fun r s => r.path cwd = s.path cwd → r.events = []

private theorem terminated_eq_nil_iff {events : List Str} : terminated [','] events = [] ↔ events = [] := by
  cases events <;> simp

/-- A session makes no directories, so it neither helps nor hinders the opening of another's file. -/
private theorem opens_appended_iff {permits : Path → Bool} {files : Files} {path other : Path} (h : Opens permits files path)
    (events : List Str) : Opens permits (appended files path events) other ↔ Opens permits files other := by
  obtain ⟨opened, hopened⟩ := h
  have hnodir := (openFile_spec hopened).2.1
  by_cases he : other = path
  · subst he
    refine iff_of_true (opens_iff.mpr ⟨(opens_iff.mp ⟨opened, hopened⟩).1, .inl ⟨_, Function.update_self _ _ _⟩⟩) ⟨opened, hopened⟩
  · have hdir : appended files path events other.dropLast = some .dir ↔ files other.dropLast = some .dir := by
      by_cases hparent : other.dropLast = path
      · rw [hparent, appended, Function.update_self]
        exact iff_of_false (by simp) hnodir
      · rw [appended, Function.update_of_ne hparent]
    rw [opens_iff, opens_iff, hdir, appended, Function.update_of_ne he]

/-- What a session leaves for those after it. -/
private theorem ownFiles_cons {permits : Path → Bool} {cwd : Path} {files : Files} {s : Session} (sessions : List Session)
    (hopens : Opens permits files (s.path cwd)) (hs : content files (s.path cwd) = []) :
    OwnFiles permits cwd files (s :: sessions) ↔ OwnFiles permits cwd (appended files (s.path cwd) s.events) sessions := by
  have hone (r : Session) : content (appended files (s.path cwd) s.events) (r.path cwd) = [] ↔
      content files (r.path cwd) = [] ∧ (s.path cwd = r.path cwd → s.events = []) := by
    by_cases he : r.path cwd = s.path cwd
    · rw [he, content_appended_self, hs, List.nil_append, terminated_eq_nil_iff]
      simp
    · rw [content_appended_of_ne files he]
      simp [Ne.symm he]
  constructor
  · rintro ⟨hopen, hempty, hown⟩
    obtain ⟨hfirst, hrest⟩ := List.pairwise_cons.mp hown
    refine ⟨fun r hr => (opens_appended_iff hopens s.events).mpr (hopen r (List.mem_cons_of_mem s hr)), fun r hr => ?_, hrest⟩
    exact (hone r).mpr ⟨hempty r (List.mem_cons_of_mem s hr), hfirst r hr⟩
  · rintro ⟨hopen, hempty, hown⟩
    refine ⟨List.forall_mem_cons.mpr ⟨hopens, fun r hr => (opens_appended_iff hopens s.events).mp (hopen r hr)⟩,
      List.forall_mem_cons.mpr ⟨hs, fun r hr => ((hone r).mp (hempty r hr)).1⟩, List.pairwise_cons.mpr ⟨fun r hr => ?_, hown⟩⟩
    exact ((hone r).mp (hempty r hr)).2

/-- Every session's trace is loaded and split into the events logged in it exactly when each session
gets its file and finds nothing in it. -/
theorem loaded_traces_unchanged_iff (permits : Path → Bool) (cwd : Path) (files : Files) (ls : List Logged)
    (hcomma : ∀ l ∈ ls, ∀ e ∈ l.session.events, ',' ∉ e) {traces : List Str}
    (h : history permits cwd (init cwd files) ls = some traces) :
    traces.map traceEvents = ls.map (·.session.events) ↔ OwnFiles permits cwd (init cwd files) (ls.map Logged.session) := by
  generalize init cwd files = files at h ⊢
  induction ls generalizing files traces with
  | nil =>
    cases h
    exact iff_of_true rfl ⟨fun _ hs => absurd hs List.not_mem_nil, fun _ hs => absurd hs List.not_mem_nil, List.Pairwise.nil⟩
  | cons l ls ih =>
    obtain ⟨hl, hls⟩ := List.forall_mem_cons.mp hcomma
    rw [history] at h
    cases hopen : openFile permits (l.session.path cwd) files with
    | none =>
      -- the process has ended: no trace for this session
      rw [hopen] at h
      cases h
      refine iff_of_false (fun he => by cases he) fun hown => ?_
      obtain ⟨opened, hopened⟩ := hown.opens l.session List.mem_cons_self
      rw [hopen] at hopened
      cases hopened
    | some opened =>
      rw [hopen] at h
      obtain ⟨files', hrun, h⟩ := Option.bind_eq_some_iff.mp h
      obtain ⟨trace, hload, h⟩ := Option.bind_eq_some_iff.mp h
      obtain ⟨rest, hrest, h⟩ := Option.bind_eq_some_iff.mp h
      cases h
      have hfiles := runSession_eq hopen hrun
      rw [hfiles, loadTrace_appended, Option.some_inj] at hload
      rw [List.map_cons, List.map_cons, List.map_cons, List.cons.injEq, ← hload, traceEvents,
        getlines_append_terminated_iff hl, ih hls files' hrest, hfiles]
      constructor
      · rintro ⟨hempty, hown⟩
        exact (ownFiles_cons _ ⟨opened, hopen⟩ hempty).mpr hown
      · intro hown
        have hempty := hown.empty l.session List.mem_cons_self
        exact ⟨hempty, (ownFiles_cons _ ⟨opened, hopen⟩ hempty).mp hown⟩

/-- A name that is not a path. -/
def Plain (fn : Str) : Prop := '/' ∉ fn ∧ fn ≠ [] ∧ fn ≠ ['.'] ∧ fn ≠ ['.', '.']

private theorem cleanStep_of_plain {fn : Str} (h : Plain fn) (rooted : Bool) (path : Path) :
    cleanStep rooted path fn = path ++ [fn] := by
  simp [cleanStep, h.2.1, h.2.2.1, h.2.2.2]

private theorem plain_savedir : Plain savedir := by
  unfold Plain
  decide

theorem path_of_plain (cwd : Path) {s : Session} (h : Plain s.fn) : s.path cwd = cwd ++ [savedir, s.fn] := by
  have hname : s.fileName = ['/'].intercalate [savedir, s.fn] := by
    rw [Session.fileName, filepathJoin, List.splitOn_eq_singleton plain_savedir.1, List.splitOn_eq_singleton h.1]
    simp [cleanStep_of_plain plain_savedir, cleanStep_of_plain h]
  rw [Session.path, resolve, hname,
    List.splitOn_intercalate '/' (by simpa using ⟨plain_savedir.1, h.1⟩) (by simp)]
  have hrelative : (['/'].intercalate [savedir, s.fn]).head? ≠ some '/' := by
    change some 't' ≠ some '/'
    decide
  rw [if_neg hrelative]
  simp [cleanStep_of_plain plain_savedir, cleanStep_of_plain h]

/-- Right after Init there is room for plain names, which are files of their own. -/
theorem ownFiles_of_plain_iff {permits : Path → Bool} (cwd : Path) (files : Files) {sessions : List Session}
    (h : ∀ s ∈ sessions, Plain s.fn) (hpermits : ∀ s ∈ sessions, permits (s.path cwd) = true) :
    OwnFiles permits cwd (init cwd files) sessions ↔ sessions.Pairwise fun r s => r.fn = s.fn → r.events = [] := by
  have hdir : resolve cwd savedir = cwd ++ [savedir] := by
    have hrelative : savedir.head? ≠ some '/' := by decide
    rw [resolve, List.splitOn_eq_singleton plain_savedir.1, if_neg hrelative]
    exact cleanStep_of_plain plain_savedir true cwd
  have hnone : ∀ s ∈ sessions, init cwd files (s.path cwd) = none := by
    intro s hs
    have hne : s.path cwd ≠ resolve cwd savedir := by
      rw [hdir, path_of_plain cwd (h s hs)]
      simp
    have hunder : resolve cwd savedir <+: s.path cwd := by
      rw [hdir, path_of_plain cwd (h s hs)]
      exact ⟨[s.fn], by simp⟩
    rw [init, if_neg hne, if_pos hunder]
  have hopens : ∀ s ∈ sessions, Opens permits (init cwd files) (s.path cwd) := by
    intro s hs
    have hparent : (s.path cwd).dropLast = resolve cwd savedir := by
      rw [hdir, path_of_plain cwd (h s hs)]
      simp
    refine opens_iff.mpr ⟨hpermits s hs, .inr ⟨hnone s hs, ?_⟩⟩
    rw [hparent, init, if_pos rfl]
  have hempty : ∀ s ∈ sessions, content (init cwd files) (s.path cwd) = [] := by
    intro s hs
    rw [content, hnone s hs]
  have hsame : (sessions.Pairwise fun r s => r.path cwd = s.path cwd → r.events = []) ↔
      sessions.Pairwise fun r s => r.fn = s.fn → r.events = [] := by
    apply List.Pairwise.iff_of_mem
    intro r s hr hs
    rw [path_of_plain cwd (h r hr), path_of_plain cwd (h s hs)]
    simp
  rw [← hsame]
  exact ⟨fun hown => hown.own, fun hown => ⟨hopens, hempty, hown⟩⟩

/-- One value at a time goes through the channel. -/
def oneByOne (n : Nat) : List Act :=
  (List.replicate n [Act.send, Act.receive, Act.handle]).flatten ++ [.close, .finish]

/-- The input with a request count of 10 that is tested twice: its trace is one file. -/
def testedTwice : List Logged :=
  List.replicate 2 ⟨⟨"trace_true_10_true.txt".toList, [['a'], ['o']]⟩, oneByOne 2, fun _ => 1023⟩

/-- Names that a file can have: at most 255 bytes, and no NUL. -/
def linuxPermits (path : Path) : Bool := path.all fun name => name.length ≤ 255 && !name.elem '\x00'

/-- The second time the events of both are loaded. -/
theorem loaded_trace_twice :
    history linuxPermits [] (init [] fun _ => none) testedTwice = some ["a,o,".toList, "a,o,a,o,".toList] ∧
      ["a,o,".toList, "a,o,a,o,".toList].map traceEvents ≠ testedTwice.map (·.session.events) :=
  ⟨by decide, by decide⟩

/-- Two inputs, with events written while later ones are waiting. -/
def testedApart : List Logged :=
  [⟨⟨"trace_true_10_true.txt".toList, [['a'], ['o']]⟩,
      [.send, .send, .receive, .handle, .close, .receive, .handle, .finish], fun _ => 0⟩,
    ⟨⟨"trace_true_1_true.txt".toList, [['a']]⟩, oneByOne 1, fun _ => 1023⟩]

theorem loaded_traces_unchanged_testedApart :
    history linuxPermits [] (init [] fun _ => none) testedApart = some ["a,o,".toList, "a,".toList] ∧
      (["a,o,".toList, "a,".toList].map traceEvents = testedApart.map (·.session.events) ↔
        OwnFiles linuxPermits [] (init [] fun _ => none) (testedApart.map Logged.session)) := by
  have h : history linuxPermits [] (init [] fun _ => none) testedApart = some ["a,o,".toList, "a,".toList] := by decide
  exact ⟨h, loaded_traces_unchanged_iff linuxPermits [] (fun _ => none) testedApart (by decide) h⟩

end LtlFuzzer.Experiment
