import AgentSync.Locks

/-! The mutexes of one vault.

Each function of the vault, of its sync handle and of the tasks it spawns, reduced to the
mutexes it takes and how long it keeps them. A condition, an early return and an error are
`opt`; a guard that lives to the end of its statement only is `under`. `rank` is an order all
of them respect: `peers` before `doc`, `doc` before the binding's tables. -/
namespace AgentSync.Vault
open Locks Cmd

inductive Mutex where
  | doc
  | peers
  | binding
  | client
  | server
  | reconnectSupervisor
  | materialized
  | lastIngested
  | materializedDirs
  | dirty
  /-- The handles a listening server keeps of its sessions. -/
  | peerTasks
  deriving DecidableEq, Repr

abbrev Code := Cmd Mutex

/-! ### Documents and labels -/

/-- A read of the document: `list_files`, `read_text_file`, `file_exists`, `file_hash`,
`list_directories`, `list_labels`, `authorized_pubkeys`, `debug_dump` and the like. -/
def query : Code := under .doc

/-- A change of the document and its notification: `write_text_file`, `delete_file`,
`rename_file`, `create_directory`, `delete_directory`, `rename_directory`,
`restore_to_heads`, `restore_to_time`. -/
def mutate : Code := block [under .doc, opt .work]

/-- The document is written to disk under its guard. -/
def flush : Code := under .doc

def saveLoop : Code := .loop (block [.work, flush])

def flushSnapshotsIndex : Code := block [query, opt .work]

/-- `create_label` and `delete_label`. -/
def changeLabel : Code := block [under .doc, opt (block [flushSnapshotsIndex, opt .work])]

/-! ### The sync handle -/

def registerPeer : Code := block [.work, under .peers]

def unregisterPeer : Code := under .peers

def generateSyncMessage : Code := .lock .peers (opt (under .doc))

def receiveSyncMessage : Code := block [.work, opt (.lock .peers (opt (under .doc))), opt .work]

def disconnectUnauthorizedPeers : Code := under .peers

def peerCount : Code := under .peers

/-! ### Connections -/

def handleInbound : Code :=
  .choice (block [receiveSyncMessage, opt (block [generateSyncMessage, .work])]) .work

/-- The reader of a connection, on either side. -/
def readerTask : Code := block [.loop (block [.work, opt handleInbound]), unregisterPeer, .work]

def writerTask : Code := .loop .work

def notifTask : Code := .loop (block [generateSyncMessage, .work])

/-- `ClientConn::connect`: the socket and the handshake, then the registration. -/
def clientConnect : Code :=
  block [.work, opt (block [registerPeer, opt (block [generateSyncMessage, .work])])]

/-- `ClientConn::close`. -/
def clientClose : Code := block [.work, unregisterPeer]

/-- The old connection is dropped under the guard of the slot. -/
def connect : Code := block [.work, opt (block [clientConnect, opt (block [under .client, .work])])]

/-- The supervisor's end is awaited without a guard. -/
def disconnect : Code :=
  block [under .reconnectSupervisor, opt .work, under .client, opt clientClose, .work]

def connectWithBackoff : Code := .loop (block [clientConnect, .work])

def supervisorTask : Code :=
  .loop (block [connectWithBackoff, opt (block [.work, under .client, .work,
    opt (block [.work, under .client, opt clientClose])])])

def connectWithReconnect : Code := block [disconnect, opt (block [.work, under .reconnectSupervisor])]

/-! ### The listener -/

/-- `handle_peer`: the handshake, then the session until its writer ends. -/
def handlePeer : Code :=
  block [.work, opt (block [query, opt (block [.work, opt (block [registerPeer,
    opt (block [generateSyncMessage, .work, unregisterPeer])])])])]

def acceptTask : Code := .loop (block [.work, opt (under .peerTasks)])

def enforcerTask : Code :=
  block [query, .loop (block [.work, opt (block [query, .work, disconnectUnauthorizedPeers])])]

def listenWithTls : Code := block [.work, opt (under .server)]

/-- `Server::shutdown` waits for the sessions under the guard of their handles. -/
def serverShutdown : Code := block [.work, .lock .peerTasks (.loop .work)]

def unlisten : Code := block [under .server, opt serverShutdown]

/-! ### The bound directory -/

/-- The end of an ingest: the document is written, then both hashes are recorded. -/
def record : Code :=
  block [under .doc, opt (block [.work, under .materialized, under .lastIngested])]

def ingestFile : Code :=
  block [.work, opt (block [opt (block [under .doc, .work]), opt (block [under .dirty,
    opt (.choice
      (block [.work, record])
      -- The text is in the document already: both hashes are recorded under its guard.
      (block [.lock .doc (opt (block [under .materialized, under .lastIngested])),
        opt record]))])])]

def ingestDirectory : Code :=
  block [.loop (block [.work, opt (.choice
    (block [under .doc, opt (under .materializedDirs)]) ingestFile)]), .work]

def initialScan : Code := .loop (block [.work, opt (.choice ingestDirectory ingestFile)])

def dispatchFsEvent : Code :=
  .choice
    (block [.work, opt (.choice ingestDirectory ingestFile)])
    (.choice
      (block [.work, opt (block [opt (block [under .doc, opt .work]),
        opt (block [under .doc, opt (block [under .materializedDirs, .work])])])])
      (.choice (block [under .doc, opt .work]) (opt ingestFile)))

def handleFsEvent : Code := block [.work, dispatchFsEvent, opt initialScan]

def flushExpired : Code := .loop (block [.work, opt handleFsEvent])

def debouncedFsLoop : Code := .loop (block [.work, opt flushExpired])

/-- One live file: its text is read from the document, the disk is compared and written. -/
def materializeFile : Code :=
  block [opt (under .doc), .work, opt (.choice (under .materialized)
    (block [under .dirty, .work, opt (under .materialized)]))]

def materializeInner : Code :=
  block [under .doc, opt (block [
    .lock .materializedDirs (.loop .work),
    under .materialized,
    under .lastIngested,
    .loop (block [.work, opt (under .dirty)]),
    .loop materializeFile,
    opt (block [under .materialized, under .lastIngested, .lock .materializedDirs (.loop .work)])])]

def materializeTask : Code := .loop (block [materializeInner, .work])

def bindingArc : Code := under .binding

def bindDirectory : Code :=
  block [.work, opt (block [under .binding, initialScan, opt materializeInner])]

def restoreLabel : Code :=
  block [query, opt (block [mutate, opt (block [bindingArc, opt materializeInner])])]

def close : Code := block [disconnect, unlisten, flush]

/-- Everything that runs as a task of its own or that a caller runs. -/
def programs : List Code :=
  [query, mutate, flush, saveLoop, changeLabel, restoreLabel, connect, disconnect,
    connectWithReconnect, supervisorTask, listenWithTls, unlisten, close, peerCount, bindingArc,
    bindDirectory, materializeInner, materializeTask, debouncedFsLoop, acceptTask, enforcerTask,
    handlePeer, readerTask, writerTask, notifTask]

/-- The order in which the mutexes are taken. -/
def rank : Mutex → Nat
  | .reconnectSupervisor => 0
  | .client => 1
  | .server => 2
  | .binding => 3
  | .peers => 4
  | .doc => 5
  | .materializedDirs => 6
  | .materialized => 7
  | .lastIngested => 8
  | .dirty => 9
  | .peerTasks => 10

theorem programs_ordered : ∀ t ∈ programs, t.Ordered rank 0 = true := by decide

/-- **No deadlock.** Whatever tasks of a vault have started, however far each has come, no
task waits for itself through mutexes that others hold. -/
theorem no_deadlock {ts : List Code} (h : Reach programs ts) (i : Nat) :
    ¬ Relation.TransGen (Blocks ts) i i :=
  no_cycle programs_ordered h i

/-- As long as a task is left, one can move. -/
theorem some_task_moves {ts : List Code} (h : Reach programs ts) (hlive : ∃ t ∈ ts, t ≠ .skip) :
    ∃ t ∈ ts, ∃ t', t.Step (Free ts) t' :=
  exists_move programs_ordered h hlive

/-- A notifier that holds `peers` waits for a flush that holds `doc`, and for nothing else. -/
theorem no_deadlock_notifier_flush : ∃ ts : List Code, Reach programs ts ∧ Blocks ts 0 1 ∧
    ¬ Relation.TransGen (Blocks ts) 0 0 := by
  have hreach : Reach programs [.seq (.seq (.held .peers (under .doc)) (block [.work])) notifTask,
      .held .doc .work] := by
    have hnotif : Reach programs [notifTask] := .tail .refl (.spawn (by simp [programs]))
    have hagain : Reach programs [.seq (block [generateSyncMessage, .work]) notifTask] :=
      .tail hnotif (.move (i := 0) rfl .again)
    have hpeers : Reach programs
        [.seq (.seq (.held .peers (opt (under .doc))) (block [.work])) notifTask] := by
      refine .tail hagain (.move (i := 0) rfl (.first (.first (.take ?_))))
      intro t ht
      obtain rfl := List.mem_singleton.mp ht
      simp [holds, block, generateSyncMessage]
    have hslot : Reach programs
        [.seq (.seq (.held .peers (under .doc)) (block [.work])) notifTask] :=
      .tail hpeers (.move (i := 0) rfl (.first (.first (.inside .right))))
    have hflush : Reach programs
        [.seq (.seq (.held .peers (under .doc)) (block [.work])) notifTask, flush] :=
      .tail hslot (.spawn (by simp [programs]))
    refine .tail hflush (.move (i := 1) rfl (.take ?_))
    intro t ht
    rcases List.mem_pair.mp ht with rfl | rfl
    · simp [holds, under]
    · simp [holds, flush, under]
  exact ⟨_, hreach, ⟨_, _, .doc, rfl, rfl, rfl, List.mem_cons_self⟩, no_deadlock hreach 0⟩

end AgentSync.Vault
