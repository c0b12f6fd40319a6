import LanguageClient.Host.Pipe
import LanguageClient.Host.Program
/-
  LanguageClient.Host.Machine — processes, pipes, files and time.

  A machine runs processes one after another in rounds of a millisecond. In a round every
  process goes on until it has to wait, has become another program or has made so many steps;
  a process waits for bytes or room in a pipe, for a child or for time to pass. A pipe ends for its reader when
  nobody can write to it any more, and refuses a writer when nobody can read from it. A file
  that has been opened has an offset, which all descriptors share that come from one opening,
  and keeps its content when it is removed.

  The client is a process outside the machine: it has descriptors of its own and its
  children are kept for it when they have ended.
-/

namespace LanguageClient.Host

inductive Endpoint where
  | reading (pipe : Nat)
  | writing (pipe : Nat)
  | device (d : Device)
  /-- A file that has been opened, by the number of its opening. -/
  | file (opening : Nat)
  deriving DecidableEq, Repr

inductive Origin where
  | place (p : Place)
  /-- Nowhere in the tree any more. -/
  | removed (id : Nat)
  deriving DecidableEq, Repr

structure OpenFile where
  origin : Origin
  mode : Shell.OpenMode
  offset : Nat := 0

structure Process where
  pid : Nat
  parent : Nat
  shell : Shell
  program : Program
  endpoints : List (Nat × Endpoint)
  here : Place
  /-- The permissions that new files do not get. -/
  mask : Nat := 18
  limits : List Limit := Limit.usual
  dispositions : List (SignalNumber × Disposition) := []
  /-- The caught signals that have not been asked for yet. -/
  arrived : List SignalNumber := []
  isStopped : Bool := false
  /-- The signals that have come since it was stopped. -/
  held : List SignalNumber := []
  /-- When a sleep is over. -/
  wake : Option Int := none
  /-- How much of the running write has been done. -/
  written : Nat := 0

structure Machine where
  tree : Tree
  /-- Where the client is. -/
  here : Place := []
  /-- The entries of the environment of the client. -/
  environment : List Bytes := []
  now : Int := 0
  processes : List Process := []
  /-- The processes that have ended and whose parents have not asked yet: pid, parent and status. -/
  ended : List (Nat × Nat × Status) := []
  pipes : List (Nat × Pipe) := []
  openings : List (Nat × OpenFile) := []
  /-- The contents of files that have been removed and are still open. -/
  removed : List (Nat × Bytes) := []
  /-- The descriptors of the client. -/
  own : List (Nat × Endpoint) := []
  nextPid : Nat := 100
  nextPipe : Nat := 1
  nextOpening : Nat := 1
  nextOwn : Nat := 10

namespace Process

def endpoint? (p : Process) (fd : Nat) : Option Endpoint := p.endpoints.lookup fd

def setEndpoint (p : Process) (fd : Nat) (endpoint : Endpoint) : Process :=
  { p with endpoints := (fd, endpoint) :: p.endpoints.filter (·.1 != fd) }

def closeEndpoint (p : Process) (fd : Nat) : Process := { p with endpoints := p.endpoints.filter (·.1 != fd) }

/-- The least descriptor from `k` on that is not open. -/
def unusedFrom (endpoints : List (Nat × Endpoint)) : Nat → Nat → Nat
  | 0, k => k
  | n + 1, k => if (endpoints.lookup k).isSome then unusedFrom endpoints n (k + 1) else k

def unused (p : Process) (least : Nat) : Nat := unusedFrom p.endpoints p.endpoints.length least

def disposition (p : Process) (signal : SignalNumber) : Disposition := (p.dispositions.lookup signal).getD .standard

def inherited (p : Process) : List (SignalNumber × Disposition) := p.dispositions.filter (·.2 == .ignored)

/-- What a signal does to a process that is not stopped: it goes on, maybe with the signal noted, or ends. -/
def hitOnce (p : Process) (signal : SignalNumber) : Option Process :=
  if signal = SignalNumber.kill then none
  else if signal = SignalNumber.stop then some { p with isStopped := true }
  else
    match p.disposition signal with
    | .ignored => some p
    | .caught => some { p with arrived := p.arrived ++ [signal] }
    | .standard => if SignalNumber.isQuiet signal then some p else none

/-- What a signal does to a process; one that is stopped learns of most signals when it goes on. -/
def hit (p : Process) (signal : SignalNumber) : Option Process :=
  if !p.isStopped ∨ signal = SignalNumber.kill then hitOnce p signal
  else if signal = SignalNumber.resume then
    (p.held ++ [signal]).foldl (fun p s => p.bind (hitOnce · s)) (some { p with isStopped := false, held := [] })
  else some { p with held := p.held ++ [signal] }

end Process

namespace Machine

def client : Nat := 50

/-- The pid of the process that all others come from, which nobody may send signals to. -/
def first : Nat := 1

def pipeRoom : Nat := 65536

def files (m : Machine) (here : Place) : Files := ⟨m.tree, here⟩

/-! ## Pipes -/

def pipeAt (m : Machine) (pipe : Nat) : Pipe := (m.pipes.lookup pipe).getD {}

def setPipe (m : Machine) (pipe : Nat) (p : Pipe) : Machine :=
  { m with pipes := m.pipes.map (fun (k, old) => if k = pipe then (k, p) else (k, old)) }

def isOpenAt (m : Machine) (endpoint : Endpoint) : Bool :=
  m.own.any (·.2 == endpoint) || m.processes.any (fun p => p.endpoints.any (·.2 == endpoint))

def room (m : Machine) (pipe : Nat) : Nat := pipeRoom - (m.pipeAt pipe).size

def fill (m : Machine) (pipe : Nat) (b : Bytes) : Machine :=
  m.setPipe pipe ((m.pipeAt pipe).push (b.take (m.room pipe)))

def draw (m : Machine) (pipe most : Nat) : Bytes × Machine :=
  let (b, p) := (m.pipeAt pipe).take most
  (b, m.setPipe pipe p)

def addPipe (m : Machine) : Nat × Machine :=
  (m.nextPipe, { m with nextPipe := m.nextPipe + 1, pipes := (m.nextPipe, {}) :: m.pipes })

/-! ## Files -/

def contentAt (m : Machine) (place : Place) : Bytes :=
  match m.tree.node? place with
  | some (.file _ (.bytes b)) => b
  | _ => []

def storeAt (m : Machine) (place : Place) (b : Bytes) : Machine :=
  match m.tree.node? place with
  | some (.file access _) => { m with tree := m.tree.put place (.file access (.bytes b)) }
  | _ => m

def contentOf (m : Machine) : Origin → Bytes
  | .place p => m.contentAt p
  | .removed id => (m.removed.lookup id).getD []

def storeTo (m : Machine) (b : Bytes) : Origin → Machine
  | .place p => m.storeAt p b
  | .removed id => { m with removed := (id, b) :: m.removed.filter (·.1 != id) }

def addOpening (m : Machine) (f : OpenFile) : Nat × Machine :=
  (m.nextOpening, { m with nextOpening := m.nextOpening + 1, openings := (m.nextOpening, f) :: m.openings })

def setOpening (m : Machine) (opening : Nat) (f : OpenFile) : Machine :=
  { m with openings := m.openings.map (fun (k, old) => if k = opening then (k, f) else (k, old)) }

/-- Take a file out of the tree; where it is open its content stays. -/
def removeAt (m : Machine) (place : Place) : Machine :=
  let origin := Origin.removed m.nextOpening
  let isOpen := m.openings.any (fun o => o.2.origin == .place place)
  { m with
    tree := m.tree.removeAll place
    nextOpening := m.nextOpening + 1
    removed := if isOpen then (m.nextOpening, m.contentAt place) :: m.removed else m.removed
    openings := m.openings.map (fun (k, f) => (k, if f.origin = .place place then { f with origin := origin } else f)) }

/-! ## Ending and signals -/

def put (m : Machine) (p : Process) : Machine := { m with processes := m.processes ++ [p] }

/-- A process that is no longer in the machine ends; its parent hears of it. -/
def bury (m : Machine) (p : Process) (status : Status) : Machine :=
  { m with
    processes := m.processes.map (fun q =>
      if q.parent = p.pid then { q with parent := first }
      else if q.pid = p.parent ∧ q.disposition SignalNumber.child = .caught then
        { q with arrived := q.arrived ++ [SignalNumber.child] }
      else q)
    ended := (if p.parent = first then [] else [(p.pid, p.parent, status)]) ++ m.ended.filter (·.2.1 != p.pid) }

def signal (m : Machine) (pid : Nat) (s : SignalNumber) : Bool × Machine :=
  match m.processes.find? (·.pid == pid) with
  | none => (m.ended.any (·.1 == pid), m)
  | some p =>
    match p.hit s with
    | some p' => (true, { m with processes := m.processes.map (fun q => if q.pid = pid then p' else q) })
    | none => (true, { m with processes := m.processes.filter (·.pid != pid) }.bury p (.killed s))

/-! ## System calls -/

inductive Served (c : SystemCall) where
  | answer (r : c.Reply) (p : Process) (m : Machine)
  /-- The call cannot be answered yet. -/
  | waits (p : Process) (m : Machine)
  /-- The process goes on with another program. -/
  | replaced (p : Process) (m : Machine)
  /-- The process has ended. -/
  | ended (m : Machine)

def readDevice (most : Nat) : Device → Bytes
  | .zero => List.replicate most 0
  | .full => List.replicate most 0
  | _ => []

def canRead : Shell.OpenMode → Bool
  | .input => true
  | .update => true
  | _ => false

def read (m : Machine) (p : Process) (fd most : Nat) : Served (.read fd most) :=
  match p.endpoint? fd with
  | none => .answer (.error .badDescriptor) p m
  | some (.device d) => .answer (.ok (readDevice most d)) p m
  | some (.writing _) => .answer (.error .badDescriptor) p m
  | some (.file opening) =>
    match m.openings.lookup opening with
    | none => .answer (.error .badDescriptor) p m
    | some f =>
      let isDirectory := match f.origin with
        | .place place => m.tree.isDirectory place
        | .removed _ => false
      if isDirectory then .answer (.error .isDirectory) p m
      else if !canRead f.mode then .answer (.error .badDescriptor) p m
      else
        let b := ((m.contentOf f.origin).drop f.offset).take most
        .answer (.ok b) p (m.setOpening opening { f with offset := f.offset + b.length })
  | some (.reading pipe) =>
    if !(m.pipeAt pipe).isEmpty then
      let (b, m') := m.draw pipe most
      .answer (.ok b) p m'
    else if (m.put p).isOpenAt (.writing pipe) then
      if p.arrived = [] then .waits p m else .answer (.error .interrupted) p m
    else .answer (.ok []) p m

/-- A content after bytes have been put into it; what is skipped is filled with NULs. -/
def patched (old : Bytes) (offset : Nat) (bytes : Bytes) : Bytes :=
  old.take offset ++ List.replicate (offset - old.length) 0 ++ bytes ++ old.drop (offset + bytes.length)

def write (m : Machine) (p : Process) (fd : Nat) (bytes : Bytes) : Served (.write fd bytes) :=
  match p.endpoint? fd with
  | none => .answer (.error .badDescriptor) p m
  | some (.device d) => .answer (if d = .full then .error .noSpace else .ok ()) p m
  | some (.reading _) => .answer (.error .badDescriptor) p m
  | some (.file opening) =>
    match m.openings.lookup opening with
    | none => .answer (.error .badDescriptor) p m
    | some f =>
      if f.mode = .input then .answer (.error .badDescriptor) p m
      else
        let old := m.contentOf f.origin
        let offset := if f.mode = .append then old.length else f.offset
        let m' := m.storeTo (patched old offset bytes) f.origin
        .answer (.ok ()) p (m'.setOpening opening { f with offset := offset + bytes.length })
  | some (.writing pipe) =>
    if !(m.put p).isOpenAt (.reading pipe) then
      match p.hit SignalNumber.pipe with
      | some p' => .answer (.error .brokenPipe) { p' with written := 0 } m
      | none => .ended (m.bury p (.killed SignalNumber.pipe))
    else
      let rest := bytes.drop p.written
      let room := m.room pipe
      let m' := if rest = [] then m else m.fill pipe rest
      if rest.length ≤ room then .answer (.ok ()) { p with written := 0 } m'
      else .waits { p with written := p.written + room } m'

/-- The place a new file at a path would have; a link that leads nowhere is followed. -/
def placeFor (f : Files) : Nat → Bytes → Except Errno Place
  | 0, _ => .error .tooManyLinks
  | links + 1, path =>
    let name := Path.filename path
    if path = [] then .error .noEntry
    else if name = [] ∨ name = Path.dotName ∨ name = Path.dotDotName then .error .isDirectory
    else
      let directory := path.take (path.length - name.length)
      match f.place true (if directory = [] then Path.dotName else directory) with
      | .error e => .error e
      | .ok place =>
        if !f.tree.isDirectory place then .error .notDirectory
        else if Tree.maxName < name.length then .error .nameTooLong
        else
          match f.tree.node? (place ++ [name]) with
          | some (.link target) => placeFor { f with here := place } links target
          | _ => .ok (place ++ [name])

def reopened (m : Machine) (p : Process) (fd : Nat) (mode : Shell.OpenMode) : Except Errno (Endpoint × Machine) :=
  match p.endpoint? fd with
  | none => .error .noEntry
  | some (.reading pipe) => .ok (if mode = .input then .reading pipe else .writing pipe, m)
  | some (.writing pipe) => .ok (if mode = .input then .reading pipe else .writing pipe, m)
  | some (.device d) => .ok (.device d, m)
  | some (.file opening) =>
    match m.openings.lookup opening with
    | none => .error .noEntry
    | some f =>
      let m := if mode = .output then m.storeTo [] f.origin else m
      let (opening, m) := m.addOpening { origin := f.origin, mode := mode }
      .ok (.file opening, m)

def opened (m : Machine) (p : Process) (path : Bytes) (mode : Shell.OpenMode) : Except Errno (Endpoint × Machine) :=
  let at? (place : Place) (m : Machine) : Endpoint × Machine :=
    let (opening, m) := m.addOpening { origin := .place place, mode := mode }
    (.file opening, m)
  let f := m.files p.here
  match f.find path with
  | .ok (place, node) =>
    if mode = .fresh then .error .alreadyThere
    else
      match node with
      | .directory _ => if mode = .input then .ok (at? place m) else .error .isDirectory
      | .device .terminal => .error .noDevice
      | .device (.descriptor fd) => m.reopened p fd mode
      | .device d => .ok (.device d, m)
      | node =>
        let needsRead := canRead mode
        let needsWrite := mode ≠ .input
        if needsRead ∧ !node.access.canRead ∨ needsWrite ∧ !node.access.canWrite then .error .accessDenied
        else .ok (at? place (if mode = .output then m.storeAt place [] else m))
  | .error e =>
    if mode = .input ∨ e ≠ .noEntry then .error e
    else if mode = .fresh ∧ (f.place false path).toOption.any (fun place => (f.tree.node? place).isSome) then
      .error .alreadyThere
    else
      match placeFor f Tree.maxLinks path with
      | .error e => .error e
      | .ok place =>
        if !m.tree.isWritable place.dropLast then .error .accessDenied
        else
          let access := Access.ofMode (438 &&& Shell.Mask.complement p.mask)
          .ok (at? place { m with tree := m.tree.put place (.file access (.bytes [])) })

def openFile (m : Machine) (p : Process) (path : Bytes) (mode : Shell.OpenMode) : Served (.openFile path mode) :=
  match m.opened p path mode with
  | .error e => .answer (.error e) p m
  | .ok (endpoint, m) =>
    let fd := p.unused 0
    .answer (.ok fd) (p.setEndpoint fd endpoint) m

def changeEndpoint (m : Machine) (p : Process) (c : DescriptorChange) : Served (.change c) :=
  match c with
  | .copy source fd =>
    match p.endpoint? source with
    | none => .answer (.error .badDescriptor) p m
    | some endpoint => .answer (.ok ()) (p.setEndpoint fd endpoint) m
  | .close fd => .answer (.ok ()) (p.closeEndpoint fd) m

def duplicate (m : Machine) (p : Process) (fd least : Nat) : Served (.duplicate fd least) :=
  match p.endpoint? fd with
  | none => .answer (.error .badDescriptor) p m
  | some endpoint =>
    let new := p.unused least
    .answer (.ok new) (p.setEndpoint new endpoint) m

def makePipe (m : Machine) (p : Process) : Served .pipe :=
  let (pipe, m') := m.addPipe
  let r := p.unused 0
  let p₁ := p.setEndpoint r (.reading pipe)
  let w := p₁.unused 0
  .answer (r, w) (p₁.setEndpoint w (.writing pipe)) m'

def fork (m : Machine) (p : Process) (j : Job) : Served (.fork j) :=
  let child : Process :=
    { p with pid := m.nextPid, parent := p.pid, shell := j.shell, program := j.code.program, arrived := [], written := 0 }
  .answer m.nextPid p (({ m with nextPid := m.nextPid + 1 } : Machine).put child)

def execute (m : Machine) (p : Process) (path : Bytes) (argv : List Bytes) (env : List (Bytes × Bytes)) :
    Served (.execute path argv env) :=
  match (m.files p.here).image path argv (env.map (fun (name, value) => name ++ Byte.equals :: value)) with
  | .error e => .answer e p m
  | .ok image =>
    .replaced
      { p with
        shell := Shell.ofEnvironment env
        program := (image.tool.code image.argv).program
        endpoints := p.endpoints.filter (·.1 < 10)
        dispositions := p.inherited
        arrived := [] } m

def firstEnded (m : Machine) (parent : Nat) : Option (Nat × Status) :=
  (m.ended.filter (·.2.1 == parent)).foldl (fun found (pid, _, status) =>
    match found with
    | none => some (pid, status)
    | some (k, s) => if pid < k then some (pid, status) else some (k, s)) none

def waitFor (m : Machine) (p : Process) (patience : Patience) : Served (.wait patience) :=
  match m.firstEnded p.pid with
  | some (pid, status) => .answer (.ok (some (pid, status))) p { m with ended := m.ended.filter (·.1 != pid) }
  | none =>
    if !m.processes.any (·.parent == p.pid) then .answer (.error .noChild) p m
    else if patience = .nothing ∨ patience = .untilSignal ∧ p.arrived ≠ [] then .answer (.ok none) p m
    else .waits p m

/-- Whether a signal is sent to every process: all of them are in the group of the client. -/
def isForAll (target : Int) : Bool := target == 0 || target == -1 || target == -(client : Int)

def targets (m : Machine) (target : Int) : List Nat :=
  (m.processes.filter (fun q => isForAll target || (q.pid : Int) == target)).map (·.pid) ++
    (m.ended.filter (fun e => (e.1 : Int) == target)).map (·.1)

def isOwnTarget (p : Process) (target : Int) : Bool :=
  (p.pid : Int) == target || (isForAll target && target != -1)

def kill (m : Machine) (p : Process) (target : Int) (s : SignalNumber) : Served (.kill target s) :=
  let others := m.targets target
  let isOwn := isOwnTarget p target
  if target = first then .answer (.error .notPermitted) p m
  else if target = client then .answer (.ok ()) p m
  else if others = [] ∧ !isOwn then .answer (.error .noProcess) p m
  else
    let m' := others.foldl (fun m pid => (m.signal pid s).2) m
    let hasLost := m.ended.length < m'.ended.length && p.disposition SignalNumber.child == .caught
    let p : Process := if hasLost then { p with arrived := p.arrived ++ [SignalNumber.child] } else p
    if isOwn then
      match p.hit s with
      | some p' => .answer (.ok ()) p' m'
      | none => .ended (m'.bury p (.killed s))
    else .answer (.ok ()) p m'

def enter (m : Machine) (p : Process) (directory : Bytes) : Served (.enter directory) :=
  match (m.files p.here).find directory with
  | .ok (place, .directory _) => .answer (.ok ()) { p with here := place } m
  | .ok _ => .answer (.error .notDirectory) p m
  | .error e => .answer (.error e) p m

def sleep (m : Machine) (p : Process) (ms : Nat) : Served (.sleep ms) :=
  match p.wake with
  | none => if ms = 0 then .answer () p m else .waits { p with wake := some (m.now + ms) } m
  | some t => if t ≤ m.now then .answer () { p with wake := none } m else .waits p m

def unlink (m : Machine) (p : Process) (path : Bytes) : Served (.unlink path) :=
  match (m.files p.here).place false path with
  | .error e => .answer (.error e) p m
  | .ok place =>
    if m.tree.isDirectory place then .answer (.error .isDirectory) p m
    else if !m.tree.isWritable place.dropLast then .answer (.error .accessDenied) p m
    else .answer (.ok ()) p (m.removeAt place)

def removeDirectory (m : Machine) (p : Process) (path : Bytes) : Served (.removeDirectory path) :=
  match (m.files p.here).place false path with
  | .error e => .answer (.error e) p m
  | .ok place =>
    if Path.filename path = Path.dotName then .answer (.error .invalid) p m
    else if !m.tree.isDirectory place then .answer (.error .notDirectory) p m
    else if m.tree.namesIn place ≠ [] then .answer (.error .notEmpty) p m
    else if !m.tree.isWritable place.dropLast then .answer (.error .accessDenied) p m
    else .answer (.ok ()) p { m with tree := m.tree.removeAll place }

def list (m : Machine) (p : Process) (directory : Bytes) : Served (.list directory) :=
  match (m.files p.here).find directory with
  | .ok (place, .directory _) => .answer (.ok (m.tree.namesIn place)) p m
  | .ok _ => .answer (.error .notDirectory) p m
  | .error e => .answer (.error e) p m

/-- What is seen of a descriptor that a path leads to: the file that it stands for, if it does. -/
def sightOf (m : Machine) (p : Process) (fd : Nat) (place : Place) : Except Errno Sight :=
  let itself : Sight := ⟨place, .device (.descriptor fd)⟩
  match p.endpoint? fd with
  | none => .error .noEntry
  | some (.device d) => .ok ⟨place, .device d⟩
  | some (.file opening) =>
    match (m.openings.lookup opening).map OpenFile.origin with
    | some (.place file) => .ok ⟨file, (m.tree.node? file).getD (.file {} (.bytes []))⟩
    | some (.removed id) => .ok ⟨place ++ [Bytes.decimal id], .file {} (.bytes (m.contentOf (.removed id)))⟩
    | none => .ok itself
  | some _ => .ok itself

def inspect (m : Machine) (p : Process) (path : Bytes) (follow : Bool) : Served (.inspect path follow) :=
  let f := m.files p.here
  let seen : Except Errno Sight :=
    match f.place follow path with
    | .error e => .error e
    | .ok place =>
      match m.tree.node? place with
      | some (.device (.descriptor fd)) => m.sightOf p fd place
      | some node => .ok ⟨place, node⟩
      | none => .error .noEntry
  .answer seen p m

def limit (m : Machine) (p : Process) (letter : UInt8) (soft hard : Option (Option Nat)) :
    Served (.limit letter soft hard) :=
  match p.limits.mapM (fun l => if l.letter = letter then l.set soft hard else .ok l) with
  | .ok limits => .answer (.ok ()) { p with limits := limits } m
  | .error e => .answer (.error e) p m

def isPipe (p : Process) (fd : Nat) : Option Bool :=
  match p.endpoint? fd with
  | none => none
  | some (.reading _) => some true
  | some (.writing _) => some true
  | some _ => some false

/-- Serve a call of a process that is not among the processes of the machine meanwhile. -/
def serve (m : Machine) (p : Process) : (c : SystemCall) → Served c
  | .read fd most => m.read p fd most
  | .write fd bytes => m.write p fd bytes
  | .openFile path mode => m.openFile p path mode
  | .change c => m.changeEndpoint p c
  | .duplicate fd least => m.duplicate p fd least
  | .pipe => m.makePipe p
  | .fork j => m.fork p j
  | .execute path argv env => m.execute p path argv env
  | .wait patience => m.waitFor p patience
  | .kill target s => m.kill p target s
  | .self => .answer (p.pid, p.parent) p m
  | .enter directory => m.enter p directory
  | .whereAmI => .answer (Files.pathOf p.here) p m
  | .mask new => .answer p.mask { p with mask := new.getD p.mask } m
  | .limits => .answer p.limits p m
  | .limit letter soft hard => m.limit p letter soft hard
  | .sleep ms => m.sleep p ms
  | .dispose s d =>
    .answer () (if SignalNumber.isFirm s then p
      else { p with dispositions := (s, d) :: p.dispositions.filter (·.1 != s) }) m
  | .isIgnored s => .answer (p.disposition s == .ignored) p m
  | .signals => .answer p.arrived { p with arrived := [] } m
  | .unlink path => m.unlink p path
  | .removeDirectory path => m.removeDirectory p path
  | .list directory => m.list p directory
  | .inspect path follow => m.inspect p path follow
  | .isPipe fd => .answer (isPipe p fd) p m

/-! ## Time -/

/-- Let a process go on for so many steps, at most until something holds after a call; then it is the
first to go on. -/
def go (done : Machine → Bool) : Nat → Machine → Process → Machine
  | 0, m, p => m.put p
  | n + 1, m, p =>
    match p.program with
    | Routine.done status => m.bury p (.exited (status % 256))
    | Routine.look next => go done n m { p with program := next p.shell }
    | Routine.put s next => go done n m { p with shell := s, program := next }
    | Routine.note _ next => go done n m { p with program := next }
    | Routine.call c next =>
      match m.serve p c with
      | .answer r p' m' =>
        let p' : Process := { p' with program := next r }
        if p'.isStopped then m'.put p'
        else if done (m'.put p') then { m' with processes := p' :: m'.processes }
        else go done n m' p'
      | .waits p' m' => m'.put p'
      | .replaced p' m' => m'.put p'
      | .ended m' => m'

def stepsPerRound : Nat := 3000

def goOn (done : Machine → Bool) (m : Machine) (pid : Nat) : Machine :=
  match m.processes.find? (·.pid == pid) with
  | none => m
  | some p =>
    if done m ∨ p.isStopped then m
    else go done stepsPerRound { m with processes := m.processes.filter (·.pid != pid) } p

def round (done : Machine → Bool) (m : Machine) : Machine := (m.processes.map (·.pid)).foldl (goOn done) m

/-- Let time pass, at most so many milliseconds, until something holds. -/
def elapse (done : Machine → Bool) : Nat → Machine → Machine
  | 0, m => m
  | ms + 1, m =>
    if done m then m
    else
      let m' := m.round done
      if done m' then m' else elapse done ms { m' with now := m'.now + 1 }

end Machine

end LanguageClient.Host
