import LanguageClient.Host.Machine
import LanguageClient.ServerProcess
/-
  LanguageClient.Host.Parent — how a machine serves the client.

  The client is the parent of the processes it starts. Its reads and writes never wait, and
  time passes only while it waits: then the processes go on, until what it waits for has
  come or the time is over.
-/

namespace LanguageClient.Host.Machine

def ownEndpoint? (m : Machine) (fd : Nat) : Option Endpoint := m.own.lookup fd

/-! ## Starting -/

def startingPlace (m : Machine) : Option Bytes → Except Errno Place
  | none => .ok m.here
  | some path =>
    match (m.files m.here).find path with
    | .ok (place, .directory _) => .ok place
    | .ok _ => .error .notDirectory
    | .error e => .error e

def addPipes (m : Machine) : (Nat × Nat × Nat) × Machine :=
  let (input, m₁) := m.addPipe
  let (output, m₂) := m₁.addPipe
  let (errors, m₃) := m₂.addPipe
  ((input, output, errors), m₃)

/-- The process that runs an image for the client; it never hears of broken pipes. -/
def child (m : Machine) (image : Image) (entries : List Bytes) (here : Place) (endpoints : List (Nat × Endpoint)) :
    Process :=
  { pid := m.nextPid
    parent := client
    shell := Shell.ofEnvironment ((entries.map Bytes.beforeNul).filterMap Environment.split?)
    program := (image.tool.code image.argv).program
    endpoints := endpoints
    here := here
    dispositions := [(SignalNumber.pipe, .ignored)] }

/-- Start a process for the client; a machine never lacks what a pipe or a process takes. -/
def launch (m : Machine) (l : Launch) : Except Unstarted Started × Machine :=
  match m.startingPlace l.directory with
  | .error e => (.error (.notExecuted e), m)
  | .ok here =>
    let argv := l.arguments.map Bytes.beforeNul
    match (m.files here).image (Bytes.beforeNul l.file) argv (l.environment.map Bytes.beforeNul) with
    | .error e => (.error (.notExecuted e), m)
    | .ok image =>
      let ((input, output, errors), m') := m.addPipes
      let k := m.nextOwn
      let endpoints := [(0, Endpoint.reading input), (1, .writing output), (2, .writing errors)]
      let own := [(k, Endpoint.writing input), (k + 1, .reading output), (k + 2, .reading errors)]
      (.ok ⟨m.nextPid, k, k + 1, k + 2⟩,
        ({ m' with nextPid := m.nextPid + 1, nextOwn := k + 3, own := own ++ m.own } : Machine).put
          (m.child image l.environment here endpoints))

/-! ## Streams -/

/-- Whether a read would give something, be it the end. -/
def isReadable (m : Machine) (fd : Nat) : Bool :=
  match m.ownEndpoint? fd with
  | some (.reading pipe) => !(m.pipeAt pipe).isEmpty || !m.isOpenAt (.writing pipe)
  | _ => true

def isWritable (m : Machine) (fd : Nat) : Bool :=
  match m.ownEndpoint? fd with
  | some (.writing pipe) => 0 < m.room pipe || !m.isOpenAt (.reading pipe)
  | _ => true

def readLimit : Nat := 65536

def receive (m : Machine) (fd : Nat) : Received × Machine :=
  match m.ownEndpoint? fd with
  | some (.reading pipe) =>
    if !(m.pipeAt pipe).isEmpty then
      let (b, m') := m.draw pipe readLimit
      (.bytes b, m')
    else (if m.isOpenAt (.writing pipe) then .nothing else .ended, m)
  | _ => (.ended, m)

def send (m : Machine) (fd : Nat) (bytes : Bytes) : Accepted × Machine :=
  match m.ownEndpoint? fd with
  | some (.writing pipe) =>
    if !m.isOpenAt (.reading pipe) then (.refused .brokenPipe, m)
    else
      let taken := bytes.take (m.room pipe)
      if taken = [] then (.full, m) else (.bytes taken.length, m.fill pipe taken)
  | _ => (.refused .badDescriptor, m)

/-! ## Waiting -/

def forever : Nat := 1000000000

def await (m : Machine) (done : Machine → Bool) (ms : Int) : Machine :=
  elapse done (if ms < 0 then forever else ms.toNat) m

/-- How long a write waits for room before it looks again. -/
def roomTime : Int := 50

def fateOf : Status → Fate
  | .exited code => .ended (some code)
  | .killed _ => .ended none

def reap (m : Machine) (pid : Nat) : Fate × Machine :=
  match m.ended.find? (fun e => e.1 == pid && e.2.1 == client) with
  | some (_, _, status) => (fateOf status, { m with ended := m.ended.filter (·.1 != pid) })
  | none => (if m.processes.any (fun p => p.pid == pid && p.parent == client) then .running else .unknown, m)

def isOver (pid : Nat) (m : Machine) : Bool := !m.processes.any (·.pid == pid)

/-! ## All services -/

def provide : (s : ServerProcess.Service) → StateM Machine s.Reply
  | .surroundings => fun m => (⟨m.files m.here, m.environment⟩, m)
  | .start l => fun m => m.launch l
  | .receive fd => fun m => m.receive fd
  | .send fd bytes => fun m => m.send fd bytes
  | .awaitRoom fd others => fun m =>
    (true, m.await (fun m => m.isWritable fd || others.any m.isReadable) roomTime)
  | .awaitBytes fds ms => fun m => ((), m.await (fun m => fds.any m.isReadable) ms)
  | .reap pid => fun m => m.reap pid
  | .collect pid => fun m => (m.await (isOver pid) (-1)).reap pid
  | .signal pid number => fun m => ((), (m.signal pid number).2)
  | .pause ms => fun m => ((), m.await (fun _ => false) ms)
  | .time => fun m => (m.now, m)
  | .close fd => fun m => ((), { m with own := m.own.filter (·.1 != fd) })
  | .spent => fun m => ((), m)

end LanguageClient.Host.Machine
