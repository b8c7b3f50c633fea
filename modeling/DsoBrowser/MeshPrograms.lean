import DsoBrowser.MeshRegistry
import DsoBrowser.HtmlTag
import DsoBrowser.PeerEndpoints

/-!
# The two mesh programs

`mesh_demo.c` and `terminal_browser.c` run a mesh context in a loop over lines of input: carry out
the command of the line, and from time to time send a beacon and clear the tables. Next to the loop
the receiver thread of the node works, and in `mesh_demo` one that listens for beacons.

A step of a program is one call of one of the threads, so the threads interleave between any two
calls of the loop. A beacon that leaves its buffer has no outcome, and ends the run.
-/

namespace DsoBrowser

open Machine

/-! ## Commands -/

/-- What a line of input asks for. -/
inductive Command where
  /-- fetch content -/
  | fetch : CString → Command
  /-- publish a prefix -/
  | publish : CString → Command
  /-- send a beacon -/
  | beacon : Command
  /-- end the program -/
  | quit : Command
  /-- show a table or a message -/
  | show : Command
  deriving DecidableEq

/-- One `%<max>s` of `sscanf`: a word, and what comes after it. -/
def scanWord (max : Nat) (str : CString) : Option (CString × CString) :=
  let str := str.dropWhile fun c => isSpace c.val
  let word := (str.takeWhile fun c => !isSpace c.val).take max
  if word = [] then none else some (word, str.drop word.length)

/-- `process_command` of `mesh_demo.c`. An argument that is not given is what the buffer holds. -/
def processCommand (stale line : CString) : Command :=
  match scanWord 255 line with
  | none => .show
  | some (command, rest) =>
    let arg1 := ((scanWord 255 rest).map Prod.fst).getD stale
    if command = text ['f', 'e', 't', 'c', 'h'] then .fetch arg1
    else if command = text ['p', 'u', 'b', 'l', 'i', 's', 'h'] then .publish arg1
    else if command = text ['b', 'e', 'a', 'c', 'o', 'n'] then .beacon
    else if command = text ['q', 'u', 'i', 't'] then .quit
    else .show

/-- The commands of `terminal_browser.c` that are one word. -/
def wordCommand (word : CString) : Command :=
  if word = text ['b', 'e', 'a', 'c', 'o', 'n'] then .beacon
  else if word = text ['q', 'u', 'i', 't'] then .quit
  else .show

/-- A line of `terminal_browser.c` that is not read as two words. -/
def lineCommand (line : CString) : Command :=
  if line.head? = some slash then .fetch line else wordCommand line

/-- How `terminal_browser.c` reads a line. One that starts with a slash is a name, as a whole. -/
def terminalCommand (line : CString) : Command :=
  match scanWord 63 line with
  | none => lineCommand line
  | some (cmd, rest) =>
    match scanWord 255 rest with
    | none => lineCommand line
    | some (arg, _) =>
      if cmd = text ['f', 'e', 't', 'c', 'h'] then .fetch arg
      else if cmd.head? = some slash then .fetch line
      else wordCommand cmd

/-- What the two programs make of a line. -/
structure Shell where
  /-- the command of a line; `stale` is what a buffer held before -/
  command : (stale line : CString) → Command
  /-- whether the round goes on after an empty line -/
  emptyLines : Bool

/-- `mesh_demo.c` -/
def meshDemo : Shell where
  command stale line := if line = [] then .show else processCommand stale line
  emptyLines := true

/-- `terminal_browser.c` -/
def terminalBrowser : Shell where
  command _ line := terminalCommand line
  emptyLines := false

/-! ## States -/

/-- Where the loop is. -/
inductive Phase where
  /-- about to send the first beacon -/
  | starting : Phase
  /-- before the next line -/
  | reading : Phase
  /-- after a command -/
  | sampling : Phase
  /-- about to send a beacon -/
  | beaconing : Phase
  /-- about to take out peers -/
  | expiring : Phase
  /-- about to take out routes -/
  | pruning : Phase
  /-- behind the loop -/
  | stopped : Phase
  /-- nothing is known any more -/
  | undefined : Phase
  deriving DecidableEq

/-- A program. -/
structure MeshProgram where
  /-- its context, with the node -/
  mesh : MeshCtx
  /-- `running` -/
  running : Bool
  /-- `last_beacon` -/
  lastBeacon : UInt64
  /-- `now`, as the loop has set it last -/
  now : UInt64
  /-- where the loop is -/
  phase : Phase

/-- What the loop reads from outside in a step. -/
structure LoopEnv where
  /-- the line, `none` at the end of the input -/
  line : Option CString
  /-- what the buffer of the argument holds -/
  stale : CString
  /-- the clock, as the nonce of an Interest -/
  nonce : UInt64
  /-- the fetch -/
  forward : ForwardEnv
  /-- the clock (ms) -/
  now : UInt64

/-- A beacon as `mesh_recv_thread` receives it. -/
structure HeardBeacon where
  /-- the bytes -/
  buf : List UInt8
  /-- where they come from -/
  src : PsirpPeer
  /-- the clock readings of `mesh_process_beacon` (ms) -/
  now : Nat → UInt64

/-- The text of a beacon: it is terminated behind the bytes received. -/
def HeardBeacon.data (b : HeardBeacon) : CString := CString.ofBytes b.buf

/-- A step of one of the threads. -/
inductive ProgramInput where
  /-- of the loop -/
  | loop : LoopEnv → ProgramInput
  /-- of the receiver thread of the node, on a datagram to it -/
  | unicast : PsirpPeer → List UInt8 → RecvEnv → ProgramInput
  /-- of the same, on a datagram to the group -/
  | multicast : PsirpPeer → List UInt8 → ProgramInput
  /-- of `mesh_recv_thread` -/
  | heard : HeardBeacon → ProgramInput
  /-- a signal -/
  | signal : ProgramInput

/-- What a step shows and sends. -/
structure ProgramOut where
  /-- the entry of a fetch -/
  shown : Option PsirpCsEntry
  /-- the datagrams of the node -/
  datagrams : List Datagram
  /-- the beacons -/
  beacons : List (PsirpPeer × CString)

/-- Nothing. -/
def ProgramOut.quiet : ProgramOut := ⟨none, [], []⟩

/-! ## Steps -/

/-- `MESH_INTEREST_TTL` -/
def meshInterestTtl : UInt32 := 16

/-- Send a beacon and go on. -/
def MeshProgram.beacon (s : MeshProgram) (next : Phase) : ProgramOut × MeshProgram :=
  match meshSendBeacon s.mesh with
  | none => (.quiet, { s with phase := .undefined })
  | some (_, mesh, sent) => (⟨none, [], sent⟩, { s with mesh := mesh, phase := next })

/-- Carry out a command. The verdict of `psirp_name_init` is ignored. -/
def MeshProgram.command (s : MeshProgram) (env : LoopEnv) : Command → ProgramOut × MeshProgram
  | .fetch name =>
    let (entry, mesh, out) := meshForwardInterest s.mesh (psirpNameInit name).2 meshInterestTtl
      env.nonce (-1) 4000 env.forward
    (⟨entry, out, []⟩, { s with mesh := mesh, phase := .sampling })
  | .publish pfx =>
    (.quiet, { s with
      mesh := meshAddLocalPrefix s.mesh (psirpNameInit pfx).2
      phase := .sampling })
  | .beacon => s.beacon .sampling
  | .quit => (.quiet, { s with running := false, phase := .sampling })
  | .show => (.quiet, { s with phase := .sampling })

/-- Where the loop goes at the end of a round. -/
def MeshProgram.again (s : MeshProgram) : MeshProgram :=
  { s with phase := if s.running then .reading else .stopped }

/-- A step of the loop. -/
def MeshProgram.loop (shell : Shell) (s : MeshProgram) (env : LoopEnv) :
    ProgramOut × MeshProgram :=
  match s.phase with
  | .starting => s.beacon .reading
  | .reading =>
    match env.line with
    | none => (.quiet, { s with phase := .stopped })
    | some line =>
      if line = [] ∧ shell.emptyLines = false then (.quiet, s.again)
      else s.command env (shell.command env.stale line)
  | .sampling =>
    if meshBeaconInterval.toUInt64 < env.now - s.lastBeacon then
      (.quiet, { s with now := env.now, phase := .beaconing })
    else (.quiet, { s with now := env.now }.again)
  | .beaconing => s.beacon .expiring
  | .expiring =>
    (.quiet, { s with mesh := (meshCheckTimeouts s.mesh s.now).2, phase := .pruning })
  | .pruning =>
    (.quiet, { s with
      mesh := (meshFibPrune s.mesh s.now).2
      lastBeacon := s.now }.again)
  | .stopped => (.quiet, s)
  | .undefined => (.quiet, s)

/-- The receiver thread changes the node. -/
def MeshProgram.receive (s : MeshProgram) (f : PsirpNode → PsirpNode × List Datagram) :
    ProgramOut × MeshProgram :=
  match s.mesh.node with
  | none => (.quiet, s)
  | some node =>
    (⟨none, (f node).2, []⟩, { s with mesh := { s.mesh with node := some (f node).1 } })

/-- One step. -/
def programStep (shell : Shell) (s : MeshProgram) : ProgramInput → ProgramOut × MeshProgram
  | .loop env => s.loop shell env
  | .unicast src buf env => s.receive fun node => recvUnicast node src buf env
  | .multicast src buf => s.receive fun node => (recvMulticast node src buf, [])
  | .heard b =>
    (.quiet, { s with
      mesh := (meshProcessBeacon s.mesh b.data b.buf.length b.src b.now).2 })
  | .signal => (.quiet, { s with running := false })

/-- Both programs when their threads run and their prefix is added. -/
def programStart (hasMcast : Bool) (name : CString) : MeshProgram where
  mesh := meshAddLocalPrefix (meshInit (some (psirpNetInit psirpCsInit hasMcast)) .ofNode)
    (psirpNameInit name).2
  running := true
  lastBeacon := 0
  now := 0
  phase := .starting

end DsoBrowser
