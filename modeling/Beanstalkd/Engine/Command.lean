import Beanstalkd.Engine.Queue

/-!
# Commands

The `cmd_*` methods of `engine.rs`, the statistics builders they report from,
and `handle`, which runs one command of a connected client.
-/

namespace Beanstalkd

namespace Engine

/-! ## Statistics -/

def tubeNames (e : Engine) : List TubeName := e.tubeOrder.items.map e.tubeName

def watchedTubeNames (e : Engine) (cid : ConnId) : List TubeName :=
  match e.conns[cid]? with
  | some c => c.watch.items.map e.tubeName
  | none => []

/-- Differences are taken in `i128` and clamped at 0 in the source. -/
def buildStatsJob (e : Engine) (id : JobId) (now : Nanos) : Option StatsJob :=
  e.jobs[id]?.map fun j =>
    { id := j.id
      tube := e.tubeName j.tube
      state := j.stateName
      pri := j.pri
      age := (now - j.createdAt) / nanosPerSec
      delay := j.delay
      ttr := j.ttr
      timeLeft := match j.state with
        | .reserved | .delayed => (j.deadlineAt - now) / nanosPerSec
        | .ready | .buried => 0
      file := j.file
      reserves := j.reserveCt
      timeouts := j.timeoutCt
      releases := j.releaseCt
      buries := j.buryCt
      kicks := j.kickCt }

def statsTubeOf (t : TubeState) (now : Nanos) : StatsTube where
  name := t.name
  currentJobsUrgent := t.stat.urgentCt
  currentJobsReady := t.ready.size
  currentJobsReserved := t.stat.reservedCt
  currentJobsDelayed := t.delayed.size
  currentJobsBuried := t.stat.buriedCt
  totalJobs := t.stat.totalJobsCt
  currentUsing := t.usingCt
  currentWatching := t.watchingCt
  currentWaiting := t.stat.waitingCt
  cmdDelete := t.stat.totalDeleteCt
  cmdPauseTube := t.stat.pauseCt
  pause := t.pause / nanosPerSec
  pauseTimeLeft := if 0 < t.pause then (t.unpauseAt - now) / nanosPerSec else 0

def buildStatsTube (e : Engine) (name : TubeName) (now : Nanos) : Option StatsTube :=
  (e.tubeIds[name]?.bind e.tube).map fun t => statsTubeOf t now

def buildStatsServer (e : Engine) (now : Nanos) : StatsServer where
  currentJobsUrgent := e.urgentCt
  currentJobsReady := e.readyCt
  currentJobsReserved := e.reservedCt
  currentJobsDelayed := e.delayedCt
  currentJobsBuried := e.buriedCt
  ops := e.ops
  jobTimeouts := e.timeoutCt
  totalJobs := e.totalJobsCt
  maxJobSize := e.cfg.maxJobSize
  currentTubes := e.tubeOrder.items.length
  currentConnections := e.curConns
  currentProducers := e.curProducers
  currentWorkers := e.curWorkers
  currentWaiting := e.waitingCt
  totalConnections := e.totConns
  sys := e.sys now
  uptime := (now - e.start) / nanosPerSec
  binlogOldestIndex := e.binlog.oldestIndex
  binlogCurrentIndex := e.binlog.currentIndex
  binlogRecordsMigrated := e.binlog.recordsMigrated
  binlogRecordsWritten := e.binlog.recordsWritten
  binlogMaxSize := e.cfg.binlogMaxSize
  draining := e.draining

/-! ## Producer commands -/

/-- The job id and creation time of a put: the pending put's if `put_started`
ran for it, else freshly allocated (and counted) now. -/
def takePutId (e : Engine) (now : Nanos) (cid : ConnId) : Engine × JobId × Nanos :=
  let pending := e.conns[cid]?.bind ConnState.pendingPut
  let e := e.modConn cid fun c => { c with pendingPut := none }
  match pending with
  | some ⟨some id, createdAt⟩ => (e, id, createdAt)
  | _ =>
    let e := e.countOp fun o => { o with put := inc64 o.put }
    let e := e.connsetproducer cid
    ({ e with nextJobId := e.nextJobId + 1 }, e.nextJobId, now)

/-- The record of a job just put. -/
def newJob (e : Engine) (id : JobId) (tube : TubeId) (pri delay ttr : Nat) (body : Bytes)
    (createdAt : Nanos) : JobRec where
  id := id
  tube := tube
  pri := pri
  delay := delay
  ttr := max ttr 1
  body := body
  createdAt := createdAt
  deadlineAt := 0
  state := .ready
  reserver := none
  listSeq := 0
  reserveCt := 0
  timeoutCt := 0
  releaseCt := 0
  buryCt := 0
  kickCt := 0
  file := if e.cfg.journal then e.binlog.currentIndex else 0

/-- Queue job `id`: delayed if `delay > 0`, ready otherwise. -/
def enqueueJob (e : Engine) (now : Nanos) (tube : TubeId) (id : JobId) (delay : Nat) : Engine :=
  if 0 < delay then e.insertDelayed tube id (satAdd now (delay * nanosPerSec))
  else e.insertReady tube id

/-- What is left of a put once the job is in the table: queue it, journal it,
hand it out if somebody waits, count it. -/
def finishPut (e : Engine) (now : Nanos) (cid : ConnId) (tube : TubeId) (id : JobId)
    (delay : Nat) : Engine :=
  let e := e.enqueueJob now tube id delay
  let e := e.journalPut id
  let e := e.processQueue now
  let e := { e with totalJobsCt := inc64 e.totalJobsCt }
  let e := e.modTube tube fun t =>
    { t with stat := { t.stat with totalJobsCt := inc64 t.stat.totalJobsCt } }
  e.reply cid (.inserted id)

/-- The id is consumed even when a draining engine refuses the job. -/
def cmdPut (e : Engine) (now : Nanos) (cid : ConnId) (pri delay ttr : Nat) (body : Bytes) :
    Engine :=
  let (e, id, createdAt) := e.takePutId now cid
  if e.draining then e.reply cid .draining
  else
    let tube := e.useTubeOf cid
    let e := { e with jobs := e.jobs.insert id (e.newJob id tube pri delay ttr body createdAt) }
    let e := e.modTube tube fun t => { t with jobRefCt := t.jobRefCt + 1 }
    e.finishPut now cid tube id delay

/-- One less connection uses the tube. -/
def dropUse (e : Engine) (tube : TubeId) : Engine :=
  (e.modTube tube fun t => { t with usingCt := t.usingCt - 1 }).gcTubeIfOrphan tube

/-- One less connection watches the tube. -/
def dropWatch (e : Engine) (tube : TubeId) : Engine :=
  (e.modTube tube fun t => { t with watchingCt := t.watchingCt - 1 }).gcTubeIfOrphan tube

def cmdUse (e : Engine) (cid : ConnId) (tube : TubeName) : Engine :=
  let e := e.countOp fun o => { o with use := inc64 o.use }
  let (e, new) := e.findOrMakeTube tube
  let old := e.useTubeOf cid
  let e :=
    if old != new then
      let e := e.dropUse old
      let e := e.modTube new fun t => { t with usingCt := t.usingCt + 1 }
      e.modConn cid fun c => { c with useTube := new }
    else e
  e.reply cid (.using tube)

/-! ## Worker commands -/

/-- The length of a connection's watch list, as replied by watch and ignore. -/
def watchCount (e : Engine) (cid : ConnId) : Nat :=
  match e.conns[cid]? with
  | some c => c.watch.items.length
  | none => 0

def isWatching (e : Engine) (cid : ConnId) (tid : TubeId) : Bool :=
  e.conns[cid]?.any fun c => c.watch.items.contains tid

def cmdWatch (e : Engine) (cid : ConnId) (tube : TubeName) : Engine :=
  let e := e.countOp fun o => { o with watch := inc64 o.watch }
  let (e, tid) := e.findOrMakeTube tube
  let e :=
    if e.conns[cid]?.any fun c => !c.watch.items.contains tid then
      let e := e.modConn cid fun c => { c with watch := c.watch.append tid }
      e.modTube tid fun t => { t with watchingCt := t.watchingCt + 1 }
    else e
  e.reply cid (.watching (e.watchCount cid))

def cmdIgnore (e : Engine) (cid : ConnId) (tube : TubeName) : Engine :=
  let e := e.countOp fun o => { o with ignore := inc64 o.ignore }
  match e.tubeIds[tube]?.filter (e.isWatching cid) with
  | none => e.reply cid (.watching (e.watchCount cid))
  | some tid =>
    if e.watchCount cid < 2 then e.reply cid .notIgnored
    else
      let e := e.modConn cid fun c => { c with watch := c.watch.remove tid }
      let e := e.dropWatch tid
      e.reply cid (.watching (e.watchCount cid))

/-- `timeout` is `none` for a plain `reserve`. A reserve that must wait
produces no reply now. -/
def cmdReserve (e : Engine) (now : Nanos) (cid : ConnId) (timeout : Option Nat) : Engine :=
  let e := e.countOp fun o => match timeout with
    | none => { o with reserve := inc64 o.reserve }
    | some _ => { o with reserveWithTimeout := inc64 o.reserveWithTimeout }
  let e := e.connsetworker cid
  if e.connDeadlineSoon cid now && !e.connReady cid then e.reply cid .deadlineSoon
  else
    let waitDeadline := timeout.map fun t => satAdd now (t * nanosPerSec)
    let e := e.enqueueWaitingConn cid waitDeadline
    let e := e.processQueue now
    if timeout == some 0 && e.isWaiting cid then
      let soon := e.connDeadlineSoon cid now
      let e := e.doRemoveWaitingConn cid
      e.reply cid (if soon then .deadlineSoon else .timedOut)
    else e

/-- Take job `id` of tube `tube` out of the container its state names. -/
def removeFrom (e : Engine) (state : JobState) (tube : TubeId) (id : JobId) : Engine :=
  match state with
  | .ready => e.removeReady tube id
  | .buried => e.removeBuried tube id
  | .delayed => e.removeDelayed tube id
  | .reserved => e

def cmdReserveJob (e : Engine) (now : Nanos) (cid : ConnId) (id : JobId) : Engine :=
  match e.jobs[id]? with
  | none => e.reply cid .notFound
  | some j =>
    if j.state = .reserved then e.reply cid .notFound
    else
      let e := e.removeFrom j.state j.tube id
      let e := e.connsetworker cid
      let e := e.doReserve cid id now
      e.reply cid (e.reservedReply id)

/-- The tube counts a deletion, and tube and job table forget the job. -/
def forgetJob (e : Engine) (tube : TubeId) (id : JobId) : Engine :=
  { e with
    tubes := Slab.modify e.tubes tube fun t =>
      { t with stat := { t.stat with totalDeleteCt := inc64 t.stat.totalDeleteCt }
               jobRefCt := t.jobRefCt - 1 }
    jobs := e.jobs.erase id }

/-- What is left of a deletion once the job is out of its container. -/
def finishDelete (e : Engine) (cid : ConnId) (tube : TubeId) (id : JobId) : Engine :=
  let e := e.forgetJob tube id
  let e := e.journalDelete id
  let e := e.gcTubeIfOrphan tube
  e.reply cid .deleted

def cmdDelete (e : Engine) (cid : ConnId) (id : JobId) : Engine :=
  let e := e.countOp fun o => { o with delete := inc64 o.delete }
  match e.jobs[id]? with
  | none => e.reply cid .notFound
  | some j =>
    if j.state = .reserved then
      if j.reserver = some cid then (e.doUnreserve cid id).finishDelete cid j.tube id
      else e.reply cid .notFound
    else (e.removeFrom j.state j.tube id).finishDelete cid j.tube id

/-- The tube of `id` if `cid` holds its reservation. -/
def reservedBy (e : Engine) (cid : ConnId) (id : JobId) : Option TubeId :=
  (e.jobs[id]?.filter fun j => j.reserver == some cid && j.state == .reserved).map JobRec.tube

/-- Only a release with a delay is journaled. -/
def cmdRelease (e : Engine) (now : Nanos) (cid : ConnId) (id : JobId) (pri delay : Nat) :
    Engine :=
  let e := e.countOp fun o => { o with release := inc64 o.release }
  match e.reservedBy cid id with
  | none => e.reply cid .notFound
  | some tube =>
    let e := e.doUnreserve cid id
    let e := e.modJob id fun j =>
      { j with pri := pri, delay := delay, releaseCt := inc32 j.releaseCt }
    let e := e.enqueueJob now tube id delay
    let e := if 0 < delay then e.journalUpdate id else e
    let e := e.processQueue now
    e.reply cid .released

def cmdBury (e : Engine) (cid : ConnId) (id : JobId) (pri : Nat) : Engine :=
  let e := e.countOp fun o => { o with bury := inc64 o.bury }
  match e.reservedBy cid id with
  | none => e.reply cid .notFound
  | some tube =>
    let e := e.doUnreserve cid id
    let e := e.modJob id fun j => { j with pri := pri }
    let e := e.insertBuried tube id
    let e := e.journalUpdate id
    e.reply cid .buried

def cmdTouch (e : Engine) (now : Nanos) (cid : ConnId) (id : JobId) : Engine :=
  let e := e.countOp fun o => { o with touch := inc64 o.touch }
  match e.reservedBy cid id, e.jobs[id]? with
  | some _, some j =>
    let new := satAdd now (j.ttr * nanosPerSec)
    let e := e.modJob id fun j => { j with deadlineAt := new }
    let e := e.modConn cid fun c =>
      { c with reservedByDeadline :=
          (c.reservedByDeadline.erase (j.deadlineAt, id)).insert (new, id) }
    let e := e.refreshConnTick cid
    e.reply cid .touched
  | _, _ => e.reply cid .notFound

/-! ## Peeks and kicks -/

/-- A FOUND reply carrying job `id`'s body. -/
def foundReply (e : Engine) (id : JobId) : Response :=
  .found id (match e.jobs[id]? with
    | some j => j.body
    | none => [])

/-- The job `pick` selects from `cid`'s used tube (NOT_FOUND if there is none). -/
def peekUsedTube (e : Engine) (cid : ConnId) (pick : TubeState → Option JobId) : Response :=
  match (e.tube (e.useTubeOf cid)).bind pick with
  | some id => e.foundReply id
  | none => .notFound

def cmdPeek (e : Engine) (cid : ConnId) (id : JobId) : Engine :=
  let e := e.countOp fun o => { o with peek := inc64 o.peek }
  e.reply cid (match e.jobs[id]? with
    | some j => .found id j.body
    | none => .notFound)

def cmdPeekReady (e : Engine) (cid : ConnId) : Engine :=
  let e := e.countOp fun o => { o with peekReady := inc64 o.peekReady }
  e.reply cid (e.peekUsedTube cid fun t => (TreeMap.first t.ready).map Prod.snd)

def cmdPeekDelayed (e : Engine) (cid : ConnId) : Engine :=
  let e := e.countOp fun o => { o with peekDelayed := inc64 o.peekDelayed }
  e.reply cid (e.peekUsedTube cid fun t => (TreeMap.first t.delayed).map Prod.snd)

def cmdPeekBuried (e : Engine) (cid : ConnId) : Engine :=
  let e := e.countOp fun o => { o with peekBuried := inc64 o.peekBuried }
  e.reply cid (e.peekUsedTube cid fun t => (TreeMap.firstEntry t.buried).map Prod.snd)

/-- At most `n` rounds of a kick; the answer counts the jobs kicked. -/
def kickLoop (step : Engine → Option Engine) : Nat → Engine → Nat → Engine × Nat
  | 0, e, count => (e, count)
  | n + 1, e, count =>
    match step e with
    | none => (e, count)
    | some e => kickLoop step n e (count + 1)

/-- Kick the tube's oldest buried job. -/
def kickBuried (now : Nanos) (tube : TubeId) (e : Engine) : Option Engine :=
  match e.popBuriedFront tube with
  | none => none
  | some (id, e) => some (e.kickToReady tube id now)

/-- Kick the tube's soonest delayed job. -/
def kickDelayed (now : Nanos) (tube : TubeId) (e : Engine) : Option Engine :=
  match (e.tube tube).bind fun t => TreeMap.first t.delayed with
  | none => none
  | some (_, id) => some ((e.removeDelayed tube id).kickToReady tube id now)

def cmdKick (e : Engine) (now : Nanos) (cid : ConnId) (n : Nat) : Engine :=
  let e := e.countOp fun o => { o with kick := inc64 o.kick }
  let tube := e.useTubeOf cid
  let hasBuried := (e.tube tube).any fun t => !t.buried.isEmpty
  let step := if hasBuried then kickBuried now tube else kickDelayed now tube
  let (e, count) := kickLoop step n e 0
  e.reply cid (.kicked count)

def cmdKickJob (e : Engine) (now : Nanos) (cid : ConnId) (id : JobId) : Engine :=
  match e.jobs[id]? with
  | none => e.reply cid .notFound
  | some j =>
    match j.state with
    | .buried => ((e.removeBuried j.tube id).kickToReady j.tube id now).reply cid .kickedJob
    | .delayed => ((e.removeDelayed j.tube id).kickToReady j.tube id now).reply cid .kickedJob
    | .ready | .reserved => e.reply cid .notFound

/-! ## Reports and pauses -/

def cmdStatsJob (e : Engine) (now : Nanos) (cid : ConnId) (id : JobId) : Engine :=
  let e := e.countOp fun o => { o with statsJob := inc64 o.statsJob }
  e.reply cid (match e.buildStatsJob id now with
    | some s => .ok s.toYaml
    | none => .notFound)

def cmdStatsTube (e : Engine) (now : Nanos) (cid : ConnId) (tube : TubeName) : Engine :=
  let e := e.countOp fun o => { o with statsTube := inc64 o.statsTube }
  e.reply cid (match e.buildStatsTube tube now with
    | some s => .ok s.toYaml
    | none => .notFound)

def cmdStats (e : Engine) (now : Nanos) (cid : ConnId) : Engine :=
  let e := e.countOp fun o => { o with stats := inc64 o.stats }
  e.reply cid (.ok (e.buildStatsServer now).toYaml)

def cmdListTubes (e : Engine) (cid : ConnId) : Engine :=
  let e := e.countOp fun o => { o with listTubes := inc64 o.listTubes }
  e.reply cid (.ok (yamlList e.tubeNames))

def cmdListTubeUsed (e : Engine) (cid : ConnId) : Engine :=
  let e := e.countOp fun o => { o with listTubeUsed := inc64 o.listTubeUsed }
  e.reply cid (.using (e.tubeName (e.useTubeOf cid)))

def cmdListTubesWatched (e : Engine) (cid : ConnId) : Engine :=
  let e := e.countOp fun o => { o with listTubesWatched := inc64 o.listTubesWatched }
  e.reply cid (.ok (yamlList (e.watchedTubeNames cid)))

/-- The delay in nanoseconds; "pause 0" pauses for 1 ns. -/
def pauseNanos (delay : Nat) : Nanos := if delay = 0 then 1 else delay * nanosPerSec

def cmdPauseTube (e : Engine) (now : Nanos) (cid : ConnId) (tube : TubeName) (delay : Nat) :
    Engine :=
  let e := e.countOp fun o => { o with pauseTube := inc64 o.pauseTube }
  match e.tubeIds[tube]? with
  | none => e.reply cid .notFound
  | some tid =>
    match e.tube tid with
    | none => e
    | some t =>
      let until' := satAdd now (pauseNanos delay)
      reply
        { e with
          tubes := Slab.modify e.tubes tid fun t =>
            { t with pause := pauseNanos delay, unpauseAt := until'
                     stat := { t.stat with pauseCt := inc64 t.stat.pauseCt } }
          pauses := Index.rekey e.pauses tid t.pauseKey (some until') } cid .paused

/-! ## One command -/

/-- Executes one command. `quit` is the server's business and does nothing. -/
def handle (e : Engine) (now : Nanos) (conn : ConnId) (cmd : Command) : Engine :=
  if e.conns.contains conn then
    match cmd with
    | .put pri delay ttr body => e.cmdPut now conn pri delay ttr body
    | .use tube => e.cmdUse conn tube
    | .reserve => e.cmdReserve now conn none
    | .reserveWithTimeout t => e.cmdReserve now conn (some t)
    | .reserveJob id => e.cmdReserveJob now conn id
    | .delete id => e.cmdDelete conn id
    | .release id pri delay => e.cmdRelease now conn id pri delay
    | .bury id pri => e.cmdBury conn id pri
    | .touch id => e.cmdTouch now conn id
    | .watch tube => e.cmdWatch conn tube
    | .ignore tube => e.cmdIgnore conn tube
    | .peek id => e.cmdPeek conn id
    | .peekReady => e.cmdPeekReady conn
    | .peekDelayed => e.cmdPeekDelayed conn
    | .peekBuried => e.cmdPeekBuried conn
    | .kick n => e.cmdKick now conn n
    | .kickJob id => e.cmdKickJob now conn id
    | .statsJob id => e.cmdStatsJob now conn id
    | .statsTube tube => e.cmdStatsTube now conn tube
    | .stats => e.cmdStats now conn
    | .listTubes => e.cmdListTubes conn
    | .listTubeUsed => e.cmdListTubeUsed conn
    | .listTubesWatched => e.cmdListTubesWatched conn
    | .quit => e
    | .pauseTube tube delay => e.cmdPauseTube now conn tube delay
    | .pauseTubeBadName =>
      (e.countOp fun o => { o with pauseTube := inc64 o.pauseTube }).reply conn .badFormat
  else e

end Engine

end Beanstalkd
