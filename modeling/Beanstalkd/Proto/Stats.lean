import Beanstalkd.Proto.Types

/-!
# Statistics payloads

`crates/proto/src/stats.rs`: the records behind `stats`, `stats-job` and
`stats-tube`, and their YAML text. The reply carries the rendered bytes.

Every payload is a block of `key: value` lines under `---`; `yamlMap` renders
one from the list of its lines, and each record lists its own lines in the
source's order.
-/

namespace Beanstalkd

/-- A number in decimal. -/
def decimal (n : Nat) : Bytes := (Nat.toDigits 10 n).map fun c => c.toNat.toUInt8

/-- A value between double quotes. -/
def quoted (b : Bytes) : Bytes := ascii "\"" ++ b ++ ascii "\""

/-- `{secs}.{micros:06}`. -/
def rusage (t : Nat × Nat) : Bytes := decimal t.1 ++ ascii "." ++ (decimal t.2).leftpad 6 48

def yamlMap (lines : List (String × Bytes)) : Bytes :=
  ascii "---\n" ++ lines.flatMap fun (key, value) => ascii key ++ ascii ": " ++ value ++ ascii "\n"

/-- The list form of list-tubes and list-tubes-watched. -/
def yamlList (names : List TubeName) : Bytes :=
  ascii "---\n" ++ names.flatMap fun n => ascii "- " ++ n.bytes ++ ascii "\n"

structure StatsJob where
  id : JobId
  tube : TubeName
  state : String
  pri : Nat
  age : Nat
  delay : Nat
  ttr : Nat
  timeLeft : Nat
  file : Nat
  reserves : Nat
  timeouts : Nat
  releases : Nat
  buries : Nat
  kicks : Nat
  deriving DecidableEq

def StatsJob.toYaml (s : StatsJob) : Bytes :=
  yamlMap [
    ("id", decimal s.id), ("tube", quoted s.tube.bytes), ("state", ascii s.state),
    ("pri", decimal s.pri), ("age", decimal s.age), ("delay", decimal s.delay),
    ("ttr", decimal s.ttr), ("time-left", decimal s.timeLeft), ("file", decimal s.file),
    ("reserves", decimal s.reserves), ("timeouts", decimal s.timeouts),
    ("releases", decimal s.releases), ("buries", decimal s.buries), ("kicks", decimal s.kicks)]

structure StatsTube where
  name : TubeName
  currentJobsUrgent : Nat
  currentJobsReady : Nat
  currentJobsReserved : Nat
  currentJobsDelayed : Nat
  currentJobsBuried : Nat
  totalJobs : Nat
  currentUsing : Nat
  currentWatching : Nat
  currentWaiting : Nat
  cmdDelete : Nat
  cmdPauseTube : Nat
  pause : Nat
  pauseTimeLeft : Nat
  deriving DecidableEq

def StatsTube.toYaml (s : StatsTube) : Bytes :=
  yamlMap [
    ("name", quoted s.name.bytes), ("current-jobs-urgent", decimal s.currentJobsUrgent),
    ("current-jobs-ready", decimal s.currentJobsReady),
    ("current-jobs-reserved", decimal s.currentJobsReserved),
    ("current-jobs-delayed", decimal s.currentJobsDelayed),
    ("current-jobs-buried", decimal s.currentJobsBuried), ("total-jobs", decimal s.totalJobs),
    ("current-using", decimal s.currentUsing), ("current-watching", decimal s.currentWatching),
    ("current-waiting", decimal s.currentWaiting), ("cmd-delete", decimal s.cmdDelete),
    ("cmd-pause-tube", decimal s.cmdPauseTube), ("pause", decimal s.pause),
    ("pause-time-left", decimal s.pauseTimeLeft)]

/-- One counter per command that the reference reports (`op_ct[]`). -/
structure OpCounts where
  put : Nat := 0
  peek : Nat := 0
  peekReady : Nat := 0
  peekDelayed : Nat := 0
  peekBuried : Nat := 0
  reserve : Nat := 0
  reserveWithTimeout : Nat := 0
  delete : Nat := 0
  release : Nat := 0
  use : Nat := 0
  watch : Nat := 0
  ignore : Nat := 0
  bury : Nat := 0
  kick : Nat := 0
  touch : Nat := 0
  stats : Nat := 0
  statsJob : Nat := 0
  statsTube : Nat := 0
  listTubes : Nat := 0
  listTubeUsed : Nat := 0
  listTubesWatched : Nat := 0
  pauseTube : Nat := 0
  deriving DecidableEq

/-- Process-level facts the engine cannot know itself (it has no I/O). -/
structure SysSnapshot where
  pid : Nat
  version : Bytes
  rusageUtime : Nat × Nat
  rusageStime : Nat × Nat
  id : Bytes
  hostname : Bytes
  os : Bytes
  platform : Bytes
  deriving DecidableEq

/-- Server-wide statistics; the `cmd-*` fields are `ops`. -/
structure StatsServer where
  currentJobsUrgent : Nat
  currentJobsReady : Nat
  currentJobsReserved : Nat
  currentJobsDelayed : Nat
  currentJobsBuried : Nat
  ops : OpCounts
  jobTimeouts : Nat
  totalJobs : Nat
  maxJobSize : Nat
  currentTubes : Nat
  currentConnections : Nat
  currentProducers : Nat
  currentWorkers : Nat
  currentWaiting : Nat
  totalConnections : Nat
  sys : SysSnapshot
  uptime : Nat
  binlogOldestIndex : Nat
  binlogCurrentIndex : Nat
  binlogRecordsMigrated : Nat
  binlogRecordsWritten : Nat
  binlogMaxSize : Nat
  draining : Bool
  deriving DecidableEq

/-- The `cmd-*` lines, in the reference's order. -/
def OpCounts.yamlLines (o : OpCounts) : List (String × Bytes) :=
  [("cmd-put", decimal o.put), ("cmd-peek", decimal o.peek),
    ("cmd-peek-ready", decimal o.peekReady), ("cmd-peek-delayed", decimal o.peekDelayed),
    ("cmd-peek-buried", decimal o.peekBuried), ("cmd-reserve", decimal o.reserve),
    ("cmd-reserve-with-timeout", decimal o.reserveWithTimeout), ("cmd-delete", decimal o.delete),
    ("cmd-release", decimal o.release), ("cmd-use", decimal o.use), ("cmd-watch", decimal o.watch),
    ("cmd-ignore", decimal o.ignore), ("cmd-bury", decimal o.bury), ("cmd-kick", decimal o.kick),
    ("cmd-touch", decimal o.touch), ("cmd-stats", decimal o.stats),
    ("cmd-stats-job", decimal o.statsJob), ("cmd-stats-tube", decimal o.statsTube),
    ("cmd-list-tubes", decimal o.listTubes), ("cmd-list-tube-used", decimal o.listTubeUsed),
    ("cmd-list-tubes-watched", decimal o.listTubesWatched),
    ("cmd-pause-tube", decimal o.pauseTube)]

def StatsServer.toYaml (s : StatsServer) : Bytes :=
  yamlMap (
    [("current-jobs-urgent", decimal s.currentJobsUrgent),
      ("current-jobs-ready", decimal s.currentJobsReady),
      ("current-jobs-reserved", decimal s.currentJobsReserved),
      ("current-jobs-delayed", decimal s.currentJobsDelayed),
      ("current-jobs-buried", decimal s.currentJobsBuried)] ++
    s.ops.yamlLines ++
    [("job-timeouts", decimal s.jobTimeouts), ("total-jobs", decimal s.totalJobs),
      ("max-job-size", decimal s.maxJobSize), ("current-tubes", decimal s.currentTubes),
      ("current-connections", decimal s.currentConnections),
      ("current-producers", decimal s.currentProducers),
      ("current-workers", decimal s.currentWorkers), ("current-waiting", decimal s.currentWaiting),
      ("total-connections", decimal s.totalConnections), ("pid", decimal s.sys.pid),
      ("version", quoted s.sys.version), ("rusage-utime", rusage s.sys.rusageUtime),
      ("rusage-stime", rusage s.sys.rusageStime), ("uptime", decimal s.uptime),
      ("binlog-oldest-index", decimal s.binlogOldestIndex),
      ("binlog-current-index", decimal s.binlogCurrentIndex),
      ("binlog-records-migrated", decimal s.binlogRecordsMigrated),
      ("binlog-records-written", decimal s.binlogRecordsWritten),
      ("binlog-max-size", decimal s.binlogMaxSize),
      ("draining", ascii (if s.draining then "true" else "false")), ("id", s.sys.id),
      ("hostname", quoted s.sys.hostname), ("os", quoted s.sys.os),
      ("platform", quoted s.sys.platform)])

end Beanstalkd
