import GoScheduler.Fallible
import GoScheduler.Text.Space
import Mathlib.Data.List.Sort

/-! The job service: validation of a job, what an update inherits from the stored job, and
the writes with the checks of the database. Requests arrive as messages whose registry
credentials are present or absent. Identifiers are texts, as in the requests. Headers and
the times of a schedule are left out; a write that fails for another reason than those
modelled changes nothing. -/
namespace GoScheduler.Core.JobService
open Text Fallible

structure DockerRegistryAuth where
  server : String := ""
  username : String := ""
  password : String := ""
  configured : Bool := false
deriving DecidableEq, Repr

structure Job where
  id : String
  tenantID : String
  name : String
  scheduleType : String
  scheduleExpression : String
  timezone : String
  targetURL : String := ""
  httpMethod : String
  bodyTemplate : String := ""
  overlapPolicy : String
  misfirePolicy : String
  executorGroupID : String
  executorHandler : String
  kubernetesClusterID : String := ""
  scriptLanguage : String := ""
  scriptSource : String := ""
  requiredExecutorLabels : List String := []
  excludedExecutorLabels : List String := []
  dockerRegistryAuth : DockerRegistryAuth := {}
  timeoutSeconds : Int
  maxRetries : Int
  maxConcurrentRuns : Int
  maxCatchUp : Int
  callbackTimeoutSeconds : Int
  maxQueueSize : Int
  enabled : Bool
  version : Int
deriving DecidableEq, Repr

/-- A job message: the registry credentials of `job` are those of `auth`, if any. -/
structure JobMessage where
  job : Job
  auth : Option DockerRegistryAuth := none
  clearDockerRegistryAuth : Bool := false
deriving DecidableEq, Repr

inductive JobError where
  | name  -- `name is required`.
  | tenantID  -- `tenant_id is required`.
  | executorGroupID  -- `executor_group_id is required`.
  | executorHandler  -- `executor_handler is required`.
  | targetURL  -- `target_url must be an absolute HTTP or HTTPS URL`.
  | targetUserinfo  -- `target_url userinfo is not allowed`.
  | handlerOf (language handler : String)  -- `%s jobs require executor_group_id and %s handler`.
  -- `script_language must be shell, python, nodejs, php, powershell, docker or kubernetes`.
  | scriptLanguage
  | scriptSource  -- `script_source must be between 1 byte and 1 MiB`.
  | clusterRequired  -- `kubernetes_cluster_id is required for kubernetes jobs`.
  | clusterNotAllowed  -- `kubernetes_cluster_id is only valid for kubernetes jobs`.
  | credentialsNotAllowed  -- `docker registry credentials are only valid for docker jobs`.
  -- `docker_registry_auth and clear_docker_registry_auth are mutually exclusive`.
  | credentialsAndClear
  | credentialsIncomplete  -- `configured docker registry credentials require server and username`.
  | credentialsInvalid  -- `invalid docker registry credentials`.
  -- `executor labels must contain 1 to 63 characters`, of the named field.
  | labelLength (field : String)
  -- `executor label %q has invalid characters`, of the named field.
  | labelCharacters (field label : String)
  | labelCount (field : String)  -- `at most 32 executor labels are allowed`, of the named field.
  | labelConflict (label : String)  -- `executor label %q cannot be both required and excluded`.
  | httpMethod  -- `unsupported HTTP method`.
  | bodyTemplate  -- `body_template only supports {{input}}`.
  | timeoutSeconds  -- `timeout_seconds must be between 1 and 3600`.
  | maxRetries  -- `max_retries must be between 0 and 20`.
  | overlapPolicy  -- `invalid overlap_policy`.
  | misfirePolicy  -- `invalid misfire_policy`.
  | maxConcurrentRuns  -- `max_concurrent_runs must be positive`.
  | maxCatchUp  -- `max_catch_up must be between 1 and 1000`.
  | callbackTimeoutSeconds  -- `callback_timeout_seconds must be between 1 and 86400`.
  | maxQueueSize  -- `max_queue_size must be between 1 and 100000`.
  | schedule (e : String)  -- `invalid schedule`.
  | passwordOnCreate  -- `docker registry password is required when creating credentials`.
  | passwordOnChange  -- `docker registry password is required when changing credentials`.
  | rollbackArguments  -- `tenant_id, job_id, version_id and positive job_version are required`.
  | remark  -- `remark must not exceed 200 characters`.
  | notFound
  | conflict
  | cipher  -- `docker registry credentials require store cipher`, or the cipher failed.
  | storedCredentials  -- `docker registry server, username and password are required`.
  | constraint  -- A constraint of the database.
  -- The connection failed.
  | database
deriving DecidableEq, Repr

structure URL where
  scheme : String
  host : String
  hasUser : Bool
deriving DecidableEq, Repr

structure Library where
  parseRequestURI : String → Option URL
  toLower : String → String
  -- The error of `schedule.Next` at the time of the call.
  scheduleError : (scheduleType expression timezone : String) → Option String
  -- The store's cipher, over the JSON of the credentials.
  encrypt : DockerRegistryAuth → Option (List ℕ × ℕ)
  decrypt : List ℕ → ℕ → Option DockerRegistryAuth

def containsAny (s chars : String) : Bool := s.toList.any chars.toList.contains

def removeInput : List Char → List Char
  | '\x7b' :: '\x7b' :: 'i' :: 'n' :: 'p' :: 'u' :: 't' :: '\x7d' :: '\x7d' :: rest =>
      removeInput rest
  | c :: rest => c :: removeInput rest
  | [] => []

def hasOpening : List Char → Bool
  | '\x7b' :: '\x7b' :: _ => true
  | _ :: rest => hasOpening rest
  | [] => false

section Validation

variable (lib : Library)

def violates (violated : Bool) (e : JobError) : Option JobError := if violated then some e else none

def labelCharacter (c : Char) : Bool :=
  ('a' ≤ c && c ≤ 'z') || ('0' ≤ c && c ≤ '9') || c == '.' || c == '_' || c == '-'

def labelValid (label : List Char) : Bool :=
  label.all labelCharacter && !label.head?.any fun c => c == '.' || c == '_' || c == '-'

def normalizeLabel (value : String) : String := lib.toLower (trimSpace value)

def labelError (field : String) (value : String) : Option JobError :=
  let label := normalizeLabel lib value
  (violates (label == "" || 63 < label.utf8ByteSize) (.labelLength field)).or
    (violates (!labelValid label.toList) (.labelCharacters field label))

def labelsError (field : String) (values : List String) : Option JobError :=
  (values.findSome? (labelError lib field)).or
    (violates (32 < (values.map (normalizeLabel lib)).dedup.length) (.labelCount field))

def normalizeExecutorLabels (values : List String) : List String :=
  (values.map (normalizeLabel lib)).dedup.insertionSort (· ≤ ·)

def expectedHandler (language : String) : String :=
  if language = "docker" then "__docker__"
  else if language = "kubernetes" then "__kubernetes__"
  else "__script__"

def scriptLanguages : List String := ["shell", "python", "nodejs", "php", "powershell"]

def targetError (target : String) : Option JobError :=
  if target = "" then none else
  match lib.parseRequestURI target with
  | none => some .targetURL
  | some u =>
      (violates (u.host == "" || (u.scheme != "http" && u.scheme != "https")) .targetURL).or
        (violates u.hasUser .targetUserinfo)

def jobChecks (job : Job) (hasAuth clearAuth : Bool) : List (Option JobError) :=
  let scripted := job.scriptLanguage != "" || job.scriptSource != ""
  let auth := job.dockerRegistryAuth
  let required := normalizeExecutorLabels lib job.requiredExecutorLabels
  let excluded := normalizeExecutorLabels lib job.excludedExecutorLabels
  [violates (trimSpace job.name == "") .name,
   violates (job.tenantID == "") .tenantID,
   violates (trimSpace job.executorGroupID == "") .executorGroupID,
   violates (trimSpace job.executorHandler == "") .executorHandler,
   targetError lib job.targetURL,
   violates (scripted && (job.executorGroupID == "" ||
      job.executorHandler != expectedHandler job.scriptLanguage))
    (.handlerOf job.scriptLanguage (expectedHandler job.scriptLanguage)),
   violates (scripted && !(scriptLanguages ++ ["docker", "kubernetes"]).contains job.scriptLanguage)
    .scriptLanguage,
   violates (scripted && (job.scriptSource == "" || 1048576 < job.scriptSource.utf8ByteSize))
    .scriptSource,
   violates (job.scriptLanguage == "kubernetes" && job.kubernetesClusterID == "") .clusterRequired,
   violates (job.scriptLanguage != "kubernetes" && job.kubernetesClusterID != "")
    .clusterNotAllowed,
   violates ((hasAuth || clearAuth) && job.scriptLanguage != "docker") .credentialsNotAllowed,
   violates (hasAuth && clearAuth) .credentialsAndClear,
   violates (hasAuth && (!auth.configured || trimSpace auth.server == "" ||
      trimSpace auth.username == "")) .credentialsIncomplete,
   violates (hasAuth && (512 < auth.server.utf8ByteSize || 256 < auth.username.utf8ByteSize ||
      4096 < auth.password.utf8ByteSize || containsAny auth.server " \t\r\n" ||
      containsAny auth.username ":\r\n")) .credentialsInvalid,
   labelsError lib "required_executor_labels" job.requiredExecutorLabels,
   labelsError lib "excluded_executor_labels" job.excludedExecutorLabels,
   (required.find? excluded.contains).map .labelConflict,
   violates (!(["GET", "POST", "PUT", "PATCH", "DELETE"].contains job.httpMethod)) .httpMethod,
   violates (hasOpening (removeInput job.bodyTemplate.toList)) .bodyTemplate,
   violates (job.timeoutSeconds < 1 || 3600 < job.timeoutSeconds) .timeoutSeconds,
   violates (job.maxRetries < 0 || 20 < job.maxRetries) .maxRetries,
   violates (!(["serial", "discard_later", "cover_early", "parallel", "skip", "queue"].contains
      job.overlapPolicy)) .overlapPolicy,
   violates (!(["skip", "fire_once", "catch_up"].contains job.misfirePolicy)) .misfirePolicy,
   violates (job.maxConcurrentRuns < 1) .maxConcurrentRuns,
   violates (job.maxCatchUp < 1 || 1000 < job.maxCatchUp) .maxCatchUp,
   violates (job.callbackTimeoutSeconds < 1 || 86400 < job.callbackTimeoutSeconds)
    .callbackTimeoutSeconds,
   violates (job.maxQueueSize < 1 || 100000 < job.maxQueueSize) .maxQueueSize,
   (lib.scheduleError job.scheduleType job.scheduleExpression job.timezone).map .schedule]

def validateJobModel (job : Job) (hasAuth clearAuth : Bool) : Except JobError Job :=
  match (jobChecks lib job hasAuth clearAuth).findSome? id with
  | some e => .error e
  | none => .ok { job with
      requiredExecutorLabels := normalizeExecutorLabels lib job.requiredExecutorLabels
      excludedExecutorLabels := normalizeExecutorLabels lib job.excludedExecutorLabels }

end Validation

/-- A row of `jobs`: the definition, and the sealed credentials where it has some. -/
structure StoredJob where
  definition : Job
  encryptedDockerRegistryAuth : Option (List ℕ × ℕ)
deriving DecidableEq, Repr

structure ScriptVersion where
  id : String
  tenantID : String
  jobID : String
  revision : ℕ
  scriptLanguage : String
  scriptSource : String
  remark : String
deriving DecidableEq, Repr

structure Tables where
  jobs : List StoredJob
  versions : List ScriptVersion
deriving DecidableEq, Repr

/-- `jobs_script_definition_check`. -/
def scriptDefinitionCheck (j : Job) : Bool :=
  (j.scriptLanguage == "" && j.scriptSource == "" && j.kubernetesClusterID == "") ||
  (scriptLanguages.contains j.scriptLanguage && j.scriptSource != "" &&
    j.executorGroupID != "" && j.executorHandler == "__script__" && j.kubernetesClusterID == "") ||
  (j.scriptLanguage == "docker" && j.scriptSource != "" && j.executorGroupID != "" &&
    j.executorHandler == "__docker__" && j.kubernetesClusterID == "") ||
  (j.scriptLanguage == "kubernetes" && j.scriptSource != "" && j.executorGroupID != "" &&
    j.executorHandler == "__kubernetes__" && j.kubernetesClusterID != "")

def scriptVersionCheck (versions : List ScriptVersion) (v : ScriptVersion) : Bool :=
  (scriptLanguages ++ ["docker", "kubernetes"]).contains v.scriptLanguage &&
  (1 ≤ v.scriptSource.utf8ByteSize && v.scriptSource.utf8ByteSize ≤ 1048576) &&
  (1 ≤ v.remark.length && v.remark.length ≤ 200) &&
  !versions.any fun w => w.id == v.id || (w.jobID == v.jobID && w.revision == v.revision)

/-- What a call draws or meets: identifiers and a failure of the connection. -/
structure Draw where
  jobID : String
  versionID : String
  fails : Bool
deriving DecidableEq, Repr

section Store

variable (lib : Library) (w : Draw)

def require (ok : Bool) (e : JobError) : Except JobError Unit := if ok then .ok () else .error e

def encryptDockerRegistryAuth (auth : DockerRegistryAuth) :
    Except JobError (Option (List ℕ × ℕ)) :=
  if !auth.configured then .ok none
  else if auth.server = "" ∨ auth.username = "" ∨ auth.password = "" then
    .error .storedCredentials
  else match lib.encrypt auth with
    | some stored => .ok (some stored)
    | none => .error .cipher

def scanJob (row : StoredJob) : Except JobError Job :=
  match row.encryptedDockerRegistryAuth with
  | none => .ok { row.definition with dockerRegistryAuth := {} }
  | some (bytes, keyVersion) =>
      match lib.decrypt bytes keyVersion with
      | none => .error .cipher
      | some auth => .ok { row.definition with
          dockerRegistryAuth := { auth with configured := true } }

def findJob (t : Tables) (tenantID id : String) : Option StoredJob :=
  t.jobs.find? fun row => row.definition.tenantID == tenantID && row.definition.id == id

def getJob (t : Tables) (tenantID id : String) : Except JobError Job :=
  match findJob t tenantID id with
  | none => .error .notFound
  | some row => scanJob lib row

def canonicalBlockPolicy (policy : String) : String :=
  if policy = "queue" then "serial" else if policy = "skip" then "discard_later" else policy

def atLeastOne (n default : Int) : Int := if n < 1 then default else n

def insertJobScriptVersion (versions : List ScriptVersion) (j : Job) (remark : String) :
    Except JobError (List ScriptVersion) := do
  let remark := if trimSpace remark = "" then "job update" else trimSpace remark
  let latest := ((versions.filter fun v => v.jobID == j.id).map (·.revision)).foldl max 0
  let version : ScriptVersion :=
    ⟨w.versionID, j.tenantID, j.id, latest + 1, j.scriptLanguage, j.scriptSource, remark⟩
  require (scriptVersionCheck versions version) .constraint
  .ok (versions ++ [version])

def insertVersionIf (changed : Bool) (versions : List ScriptVersion) (j : Job) (remark : String) :
    Except JobError (List ScriptVersion) :=
  if changed then insertJobScriptVersion w versions j remark else .ok versions

def withDefaults (request : Job) : Job :=
  { request with
    overlapPolicy := canonicalBlockPolicy request.overlapPolicy
    maxConcurrentRuns := atLeastOne request.maxConcurrentRuns 1
    maxCatchUp := atLeastOne request.maxCatchUp 10
    callbackTimeoutSeconds := atLeastOne request.callbackTimeoutSeconds 3600
    maxQueueSize := atLeastOne request.maxQueueSize 1000
    id := if request.id = "" then w.jobID else request.id
    version := 1 }

def checkSchedule (j : Job) : Except JobError Unit :=
  match lib.scheduleError j.scheduleType j.scheduleExpression j.timezone with
  | some e => .error (.schedule e)
  | none => .ok ()

def createJob (t : Tables) (request : Job) : Except JobError (Job × Tables) := do
  checkSchedule lib request
  let stored ← encryptDockerRegistryAuth lib request.dockerRegistryAuth
  require (!w.fails) .database
  require (scriptDefinitionCheck (withDefaults w request) &&
    !t.jobs.any fun row => row.definition.id == (withDefaults w request).id) .constraint
  let versions ← insertVersionIf w (request.scriptLanguage != "") t.versions
    (withDefaults w request) "initial version"
  .ok (withDefaults w request,
    ⟨t.jobs ++ [⟨{ withDefaults w request with dockerRegistryAuth := {} }, stored⟩], versions⟩)

def replaceJob (jobs : List StoredJob) (tenantID id : String) (row : StoredJob) :
    List StoredJob :=
  jobs.map fun old =>
    if old.definition.tenantID = tenantID ∧ old.definition.id = id then row else old

def updatedJob (request : Job) : Job :=
  { request with
    overlapPolicy := canonicalBlockPolicy request.overlapPolicy
    version := request.version + 1 }

def updateJob (t : Tables) (request : Job) : Except JobError (Job × Tables) := do
  checkSchedule lib request
  let stored ← encryptDockerRegistryAuth lib request.dockerRegistryAuth
  require (!w.fails) .database
  match findJob t request.tenantID request.id with
  | none => .error .conflict
  | some row => do
      let current ← scanJob lib row
      require (current.version == request.version) .conflict
      require (scriptDefinitionCheck (updatedJob request)) .constraint
      let versions ← insertVersionIf w ((current.scriptLanguage != request.scriptLanguage ||
          current.scriptSource != request.scriptSource) && request.scriptLanguage != "")
        t.versions (updatedJob request) "job update"
      .ok (updatedJob request, ⟨replaceJob t.jobs request.tenantID request.id
        ⟨{ updatedJob request with dockerRegistryAuth := {} }, stored⟩, versions⟩)

def rolledBackJob (j : Job) (target : ScriptVersion) : Job :=
  { j with
    scriptLanguage := target.scriptLanguage
    scriptSource := target.scriptSource
    version := j.version + 1 }

def rollbackJobScriptVersion (t : Tables) (tenantID jobID versionID : String)
    (jobVersion : Int) (remark : String) : Except JobError (Job × Tables) := do
  let remark := trimSpace remark
  require (remark.utf8ByteSize ≤ 200) .remark
  require (!w.fails) .database
  match findJob t tenantID jobID with
  | none => .error .notFound
  | some row => do
      let job ← scanJob lib row
      require (job.version == jobVersion) .conflict
      match t.versions.find? fun v =>
          v.tenantID == tenantID && v.jobID == jobID && v.id == versionID with
      | none => .error .notFound
      | some target => do
          let rolledBack : StoredJob :=
            ⟨rolledBackJob row.definition target, row.encryptedDockerRegistryAuth⟩
          require (scriptDefinitionCheck rolledBack.definition) .constraint
          let job ← scanJob lib rolledBack
          let versions ← insertJobScriptVersion w t.versions job
            (if remark = "" then "rollback to revision " ++ toString target.revision else remark)
          .ok (job, ⟨replaceJob t.jobs tenantID jobID rolledBack, versions⟩)

end Store

section Service

variable (lib : Library) (w : Draw)

def fromProto (m : JobMessage) : Job :=
  { m.job with
    dockerRegistryAuth := match m.auth with
      | some auth => { auth with
          server := trimSpace auth.server, username := trimSpace auth.username }
      | none => {} }

def create (t : Tables) (m : JobMessage) : Except JobError (Job × Tables) := do
  let job ← validateJobModel lib (fromProto m) m.auth.isSome false
  require (!(job.dockerRegistryAuth.configured && job.dockerRegistryAuth.password == ""))
    .passwordOnCreate
  createJob lib w t job

def update (t : Tables) (m : JobMessage) : Except JobError (Job × Tables) := do
  let job ← validateJobModel lib (fromProto m) m.auth.isSome m.clearDockerRegistryAuth
  if m.clearDockerRegistryAuth then
    updateJob lib w t { job with dockerRegistryAuth := {} }
  else if m.auth.isNone ∨
      (job.dockerRegistryAuth.configured ∧ job.dockerRegistryAuth.password = "") then do
    let current ← getJob lib t job.tenantID job.id
    require (!(m.auth.isSome && (!current.dockerRegistryAuth.configured ||
      current.dockerRegistryAuth.server != job.dockerRegistryAuth.server ||
      current.dockerRegistryAuth.username != job.dockerRegistryAuth.username))) .passwordOnChange
    updateJob lib w t { job with dockerRegistryAuth := current.dockerRegistryAuth }
  else updateJob lib w t job

def rollbackScriptVersion (t : Tables) (tenantID jobID versionID : String) (jobVersion : Int)
    (remark : String) : Except JobError (Job × Tables) := do
  require (tenantID != "" && jobID != "" && versionID != "" && decide (1 ≤ jobVersion))
    .rollbackArguments
  require ((trimSpace remark).utf8ByteSize ≤ 200) .remark
  rollbackJobScriptVersion lib w t tenantID jobID versionID jobVersion remark

end Service

inductive Call where
  | create (m : JobMessage)
  | update (m : JobMessage)
  | rollbackScriptVersion (tenantID jobID versionID : String) (jobVersion : Int)
      (remark : String)
deriving DecidableEq, Repr

def Call.apply (lib : Library) (w : Draw) (t : Tables) : Call → Except JobError (Job × Tables)
  | .create m => JobService.create lib w t m
  | .update m => JobService.update lib w t m
  | .rollbackScriptVersion tenantID jobID versionID jobVersion remark =>
      JobService.rollbackScriptVersion lib w t tenantID jobID versionID jobVersion remark

def Call.after (lib : Library) (w : Draw) (t : Tables) (c : Call) : Tables :=
  match c.apply lib w t with
  | .ok (_, t') => t'
  | .error _ => t

/-- The credentials `execute` puts into the request that dispatches a run of the job. -/
def dispatchedAuth (job : Job) : Option DockerRegistryAuth :=
  if job.dockerRegistryAuth.configured then some { job.dockerRegistryAuth with configured := false }
  else none

/-! What the calls write. -/

section Effects

variable {lib : Library} {w : Draw} {t t' : Tables} {j : Job}

theorem of_require {ok : Bool} {e : JobError} {u : Unit} (h : require ok e = .ok u) :
    ok = true := by
  unfold require at h
  split at h
  · assumption
  · exact absurd h (by simp)

theorem validateJobModel_ok {job job' : Job} {hasAuth clearAuth : Bool}
    (h : validateJobModel lib job hasAuth clearAuth = .ok job') :
    (hasAuth ∨ clearAuth → job.scriptLanguage = "docker") ∧
    job'.id = job.id ∧ job'.tenantID = job.tenantID ∧ job'.scriptLanguage = job.scriptLanguage ∧
    job'.dockerRegistryAuth = job.dockerRegistryAuth := by
  unfold validateJobModel at h
  split at h
  · exact absurd h (by simp)
  · rename_i hnone
    injection h with h
    subst h
    refine ⟨fun hauth => ?_, rfl, rfl, rfl, rfl⟩
    rw [List.findSome?_eq_none_iff] at hnone
    have hcheck := hnone (violates ((hasAuth || clearAuth) && job.scriptLanguage != "docker")
      .credentialsNotAllowed) (by simp [jobChecks])
    by_contra hlanguage
    simp [violates, hauth, hlanguage] at hcheck

structure Writes (t t' : Tables) (row : StoredJob) : Prop where
  jobs : ∀ r ∈ t'.jobs, r ∈ t.jobs ∨ r = row
  check : scriptDefinitionCheck row.definition = true
  versions : ∀ v ∈ t'.versions, v ∈ t.versions ∨ v.scriptLanguage ≠ ""

theorem insertJobScriptVersion_ok {versions versions' : List ScriptVersion} {remark : String}
    (h : insertJobScriptVersion w versions j remark = .ok versions') :
    ∀ v ∈ versions', v ∈ versions ∨ v.scriptLanguage ≠ "" := by
  unfold insertJobScriptVersion at h
  obtain ⟨u, hcheck, h⟩ := exists_of_bind_ok h
  have hcheck := of_require hcheck
  injection h with h
  subst h
  intro v hv
  rcases List.mem_append.mp hv with hv | hv
  · exact .inl hv
  · right
    rw [List.mem_singleton.mp hv]
    intro (hempty : j.scriptLanguage = "")
    simp only [scriptVersionCheck, Bool.and_eq_true] at hcheck
    rw [hempty] at hcheck
    exact absurd hcheck.1.1.1 (by decide)

theorem insertVersionIf_ok {changed : Bool} {versions versions' : List ScriptVersion}
    {remark : String} (h : insertVersionIf w changed versions j remark = .ok versions') :
    ∀ v ∈ versions', v ∈ versions ∨ v.scriptLanguage ≠ "" := by
  unfold insertVersionIf at h
  split at h
  · exact insertJobScriptVersion_ok h
  · injection h with h
    subst h
    exact fun v hv => .inl hv

theorem configured_of_encrypted {auth : DockerRegistryAuth} {stored : Option (List ℕ × ℕ)}
    (h : encryptDockerRegistryAuth lib auth = .ok stored) (hstored : stored.isSome) :
    auth.configured = true := by
  cases hconfigured : auth.configured with
  | true => rfl
  | false =>
    simp only [encryptDockerRegistryAuth, hconfigured, Bool.not_false, if_true,
      Except.ok.injEq] at h
    simp [← h] at hstored

theorem mem_replaceJob {jobs : List StoredJob} {tenantID id : String} {row r : StoredJob}
    (h : r ∈ replaceJob jobs tenantID id row) : r ∈ jobs ∨ r = row := by
  obtain ⟨old, hold, rfl⟩ := List.mem_map.mp h
  split
  · exact .inr rfl
  · exact .inl hold

theorem createJob_writes {request : Job} (h : createJob lib w t request = .ok (j, t')) :
    ∃ row, Writes t t' row ∧ row.definition.scriptLanguage = request.scriptLanguage ∧
      (row.encryptedDockerRegistryAuth.isSome → request.dockerRegistryAuth.configured) := by
  unfold createJob at h
  obtain ⟨-, -, h⟩ := exists_of_bind_ok h
  obtain ⟨stored, hstored, h⟩ := exists_of_bind_ok h
  obtain ⟨-, -, h⟩ := exists_of_bind_ok h
  obtain ⟨u, hcheck, h⟩ := exists_of_bind_ok h
  obtain ⟨versions, hversions, h⟩ := exists_of_bind_ok h
  have hcheck := of_require hcheck
  rw [Bool.and_eq_true] at hcheck
  simp only [Except.ok.injEq, Prod.mk.injEq] at h
  obtain ⟨-, rfl⟩ := h
  refine ⟨⟨{ withDefaults w request with dockerRegistryAuth := {} }, stored⟩,
    ⟨fun r hr => ?_, hcheck.1, insertVersionIf_ok hversions⟩, rfl,
    configured_of_encrypted hstored⟩
  rcases List.mem_append.mp hr with hr | hr
  · exact .inl hr
  · exact .inr (List.mem_singleton.mp hr)

theorem updateJob_writes {request : Job} (h : updateJob lib w t request = .ok (j, t')) :
    ∃ row, Writes t t' row ∧ row.definition.scriptLanguage = request.scriptLanguage ∧
      (row.encryptedDockerRegistryAuth.isSome → request.dockerRegistryAuth.configured) := by
  unfold updateJob at h
  obtain ⟨-, -, h⟩ := exists_of_bind_ok h
  obtain ⟨stored, hstored, h⟩ := exists_of_bind_ok h
  obtain ⟨-, -, h⟩ := exists_of_bind_ok h
  split at h
  · exact absurd h (by simp)
  obtain ⟨current, -, h⟩ := exists_of_bind_ok h
  obtain ⟨-, -, h⟩ := exists_of_bind_ok h
  obtain ⟨u, hcheck, h⟩ := exists_of_bind_ok h
  obtain ⟨versions, hversions, h⟩ := exists_of_bind_ok h
  simp only [Except.ok.injEq, Prod.mk.injEq] at h
  obtain ⟨-, rfl⟩ := h
  exact ⟨_, ⟨fun r hr => mem_replaceJob hr, of_require hcheck, insertVersionIf_ok hversions⟩, rfl,
    configured_of_encrypted hstored⟩

theorem rollbackJobScriptVersion_writes {tenantID jobID versionID remark : String}
    {jobVersion : Int}
    (h : rollbackJobScriptVersion lib w t tenantID jobID versionID jobVersion remark =
      .ok (j, t')) :
    ∃ old ∈ t.jobs, ∃ target ∈ t.versions, Writes t t'
      ⟨rolledBackJob old.definition target, old.encryptedDockerRegistryAuth⟩ := by
  unfold rollbackJobScriptVersion at h
  obtain ⟨-, -, h⟩ := exists_of_bind_ok h
  obtain ⟨-, -, h⟩ := exists_of_bind_ok h
  split at h
  · exact absurd h (by simp)
  rename_i row hrow
  obtain ⟨job, -, h⟩ := exists_of_bind_ok h
  obtain ⟨-, -, h⟩ := exists_of_bind_ok h
  split at h
  · exact absurd h (by simp)
  rename_i target htarget
  obtain ⟨u, hcheck, h⟩ := exists_of_bind_ok h
  obtain ⟨job', -, h⟩ := exists_of_bind_ok h
  obtain ⟨versions, hversions, h⟩ := exists_of_bind_ok h
  simp only [Except.ok.injEq, Prod.mk.injEq] at h
  obtain ⟨-, rfl⟩ := h
  exact ⟨row, List.mem_of_find?_eq_some hrow, target, List.mem_of_find?_eq_some htarget,
    fun r hr => mem_replaceJob hr, of_require hcheck, insertJobScriptVersion_ok hversions⟩

def CredentialsOnDocker (t : Tables) : Prop :=
  ∀ row ∈ t.jobs, row.encryptedDockerRegistryAuth.isSome → row.definition.scriptLanguage = "docker"

instance (t : Tables) : Decidable (CredentialsOnDocker t) :=
  inferInstanceAs (Decidable (∀ row ∈ t.jobs, _ → _))

structure Checked (t : Tables) : Prop where
  jobs : ∀ row ∈ t.jobs, scriptDefinitionCheck row.definition = true
  versions : ∀ v ∈ t.versions, v.scriptLanguage ≠ ""

theorem Writes.checked {row : StoredJob} (hw : Writes t t' row) (ht : Checked t) : Checked t' where
  jobs r hr := (hw.jobs r hr).elim (ht.jobs r) fun h => h ▸ hw.check
  versions v hv := (hw.versions v hv).elim (ht.versions v) id

theorem Writes.credentials {row : StoredJob} (hw : Writes t t' row) (ht : CredentialsOnDocker t)
    (hrow : row.encryptedDockerRegistryAuth.isSome → row.definition.scriptLanguage = "docker") :
    CredentialsOnDocker t' :=
  fun r hr => (hw.jobs r hr).elim (ht r) fun h => h ▸ hrow

theorem docker_iff_handler (hcheck : scriptDefinitionCheck j = true)
    (hscript : j.scriptLanguage ≠ "") :
    j.scriptLanguage = "docker" ↔ j.executorHandler = "__docker__" := by
  simp only [scriptDefinitionCheck, Bool.or_eq_true, Bool.and_eq_true, beq_iff_eq] at hcheck
  rcases hcheck with ((hnone | hscripted) | hdocker) | hkubernetes
  · exact absurd hnone.1.1 hscript
  · have hlanguage : j.scriptLanguage ≠ "docker" := by
      intro h
      rw [h] at hscripted
      exact absurd hscripted.1.1.1.1 (by decide)
    simp [hlanguage, hscripted.1.2]
  · simp [hdocker.1.1.1.1, hdocker.1.2]
  · simp [hkubernetes.1.1.1.1, hkubernetes.1.2]

theorem rolledBack_docker {target : ScriptVersion}
    (hold : scriptDefinitionCheck j = true) (hdocker : j.scriptLanguage = "docker")
    (htarget : target.scriptLanguage ≠ "")
    (hnew : scriptDefinitionCheck (rolledBackJob j target) = true) :
    (rolledBackJob j target).scriptLanguage = "docker" := by
  rw [docker_iff_handler hnew htarget]
  exact (docker_iff_handler hold (by rw [hdocker]; decide)).mp hdocker

theorem scanJob_configured {row : StoredJob} {job : Job} (h : scanJob lib row = .ok job) :
    job.scriptLanguage = row.definition.scriptLanguage ∧
    (job.dockerRegistryAuth.configured ↔ row.encryptedDockerRegistryAuth.isSome) := by
  unfold scanJob at h
  split at h
  · rename_i hnone
    injection h with h
    subst h
    simp [hnone]
  · rename_i bytes keyVersion hsome
    split at h
    · exact absurd h (by simp)
    · injection h with h
      subst h
      simp [hsome]

theorem configured_fromProto {m : JobMessage}
    (h : (fromProto m).dockerRegistryAuth.configured = true) : m.auth.isSome := by
  unfold fromProto at h
  cases hauth : m.auth with
  | none => simp [hauth] at h
  | some auth => rfl

/-- An update that says nothing of the credentials does not turn a Docker job with
credentials into another job. -/
def Call.KeepsLanguage (t : Tables) : Call → Prop
  | .update m => m.auth = none → m.clearDockerRegistryAuth = false →
      ∀ row ∈ findJob t m.job.tenantID m.job.id, row.encryptedDockerRegistryAuth.isSome →
        m.job.scriptLanguage = "docker"
  | _ => True

instance (t : Tables) (c : Call) : Decidable (c.KeepsLanguage t) := by
  unfold Call.KeepsLanguage
  split <;> infer_instance

theorem create_writes {m : JobMessage} (h : create lib w t m = .ok (j, t')) :
    ∃ row, Writes t t' row ∧
      (row.encryptedDockerRegistryAuth.isSome → row.definition.scriptLanguage = "docker") := by
  unfold create at h
  obtain ⟨job, hjob, h⟩ := exists_of_bind_ok h
  obtain ⟨-, -, h⟩ := exists_of_bind_ok h
  obtain ⟨hdocker, -, -, hlanguage, hauth⟩ := validateJobModel_ok hjob
  obtain ⟨row, hwrites, hrow, hconfigured⟩ := createJob_writes h
  refine ⟨row, hwrites, fun hsome => ?_⟩
  have hprovided := configured_fromProto (hauth ▸ hconfigured hsome)
  rw [hrow, hlanguage]
  exact hdocker (.inl hprovided)

theorem update_writes {m : JobMessage} (hkeep : (Call.update m).KeepsLanguage t)
    (h : update lib w t m = .ok (j, t')) :
    ∃ row, Writes t t' row ∧
      (row.encryptedDockerRegistryAuth.isSome → row.definition.scriptLanguage = "docker") := by
  unfold update at h
  obtain ⟨job, hjob, h⟩ := exists_of_bind_ok h
  obtain ⟨hdocker, hid, htenant, hlanguage, hauth⟩ := validateJobModel_ok hjob
  split at h
  · obtain ⟨row, hwrites, hrow, hconfigured⟩ := updateJob_writes h
    exact ⟨row, hwrites, fun hsome => absurd (hconfigured hsome) (by simp)⟩
  rename_i hclear
  split at h
  · obtain ⟨current, hcurrent, h⟩ := exists_of_bind_ok h
    obtain ⟨-, -, h⟩ := exists_of_bind_ok h
    obtain ⟨row, hwrites, hrow, hconfigured⟩ := updateJob_writes h
    refine ⟨row, hwrites, fun hsome => ?_⟩
    rw [hrow]
    show job.scriptLanguage = "docker"
    rw [hlanguage]
    cases hprovided : m.auth with
    | some auth => exact hdocker (.inl (by simp [hprovided]))
    | none =>
      -- The credentials are those of the stored job.
      unfold getJob at hcurrent
      split at hcurrent
      · exact absurd hcurrent (by simp)
      · rename_i old hold
        rw [htenant, hid] at hold
        exact hkeep hprovided (by simpa using hclear) old hold
          ((scanJob_configured hcurrent).2.mp (hconfigured hsome))
  · obtain ⟨row, hwrites, hrow, hconfigured⟩ := updateJob_writes h
    refine ⟨row, hwrites, fun hsome => ?_⟩
    rw [hrow, hlanguage]
    exact hdocker (.inl (configured_fromProto (hauth ▸ hconfigured hsome)))

theorem rollback_writes {tenantID jobID versionID remark : String} {jobVersion : Int}
    (ht : Checked t) (hc : CredentialsOnDocker t)
    (h : rollbackScriptVersion lib w t tenantID jobID versionID jobVersion remark = .ok (j, t')) :
    ∃ row, Writes t t' row ∧
      (row.encryptedDockerRegistryAuth.isSome → row.definition.scriptLanguage = "docker") := by
  unfold rollbackScriptVersion at h
  obtain ⟨-, -, h⟩ := exists_of_bind_ok h
  obtain ⟨-, -, h⟩ := exists_of_bind_ok h
  obtain ⟨old, hold, target, htarget, hwrites⟩ := rollbackJobScriptVersion_writes h
  refine ⟨_, hwrites, fun hsome => ?_⟩
  exact rolledBack_docker (ht.jobs old hold) (hc old hold hsome) (ht.versions target htarget)
    hwrites.check

theorem Call.after_keeps (lib : Library) (w : Draw) {c : Call} (hkeep : c.KeepsLanguage t)
    (ht : Checked t)
    (hc : CredentialsOnDocker t) :
    Checked (c.after lib w t) ∧ CredentialsOnDocker (c.after lib w t) := by
  unfold Call.after
  split
  · rename_i result job t' happly
    have hwrites : ∃ row, Writes t t' row ∧ (row.encryptedDockerRegistryAuth.isSome →
        row.definition.scriptLanguage = "docker") := by
      cases c with
      | create m => exact create_writes happly
      | update m => exact update_writes hkeep happly
      | rollbackScriptVersion => exact rollback_writes ht hc happly
    obtain ⟨row, hw, hrow⟩ := hwrites
    exact ⟨hw.checked ht, hw.credentials hc hrow⟩
  · exact ⟨ht, hc⟩

end Effects

def run (lib : Library) : Tables → List (Draw × Call) → Tables
  | t, [] => t
  | t, (w, c) :: rest => run lib (c.after lib w t) rest

def KeepLanguage (lib : Library) : Tables → List (Draw × Call) → Prop
  | _, [] => True
  | t, (w, c) :: rest => c.KeepsLanguage t ∧ KeepLanguage lib (c.after lib w t) rest

theorem run_keeps {lib : Library} {t : Tables} (calls : List (Draw × Call))
    (hkeep : KeepLanguage lib t calls) (ht : Checked t) (hc : CredentialsOnDocker t) :
    CredentialsOnDocker (run lib t calls) := by
  induction calls generalizing t with
  | nil => exact hc
  | cons call rest ih =>
    obtain ⟨ht', hc'⟩ := Call.after_keeps lib call.1 hkeep.1 ht hc
    exact ih hkeep.2 ht' hc'

/-- After a sequence of calls in which no update leaves the credentials out while it turns
a Docker job that has some into another job, only Docker jobs have credentials, and only
requests of Docker jobs are dispatched with some. -/
theorem registry_credentials_on_docker (lib : Library) (calls : List (Draw × Call))
    (hkeep : KeepLanguage lib ⟨[], []⟩ calls) :
    CredentialsOnDocker (run lib ⟨[], []⟩ calls) ∧
    ∀ row ∈ (run lib ⟨[], []⟩ calls).jobs, ∀ job, scanJob lib row = .ok job →
      (dispatchedAuth job).isSome → job.scriptLanguage = "docker" := by
  have hcredentials := run_keeps calls hkeep ⟨by simp, by simp⟩ (by simp [CredentialsOnDocker])
  refine ⟨hcredentials, fun row hrow job hjob hauth => ?_⟩
  obtain ⟨hlanguage, hconfigured⟩ := scanJob_configured hjob
  rw [hlanguage]
  apply hcredentials row hrow
  rw [← hconfigured]
  unfold dispatchedAuth at hauth
  split at hauth
  · assumption
  · exact absurd hauth (by simp)

def plainLibrary : Library where
  parseRequestURI _ := none
  toLower := id
  scheduleError _ _ _ := none
  encrypt _ := some ([1], 1)
  decrypt _ _ := some ⟨"registry.example", "robot", "secret", true⟩

def imageJob : Job where
  id := "job"
  tenantID := "tenant"
  name := "image"
  scheduleType := "cron"
  scheduleExpression := "0 0 * * * *"
  timezone := "UTC"
  httpMethod := "POST"
  overlapPolicy := "serial"
  misfirePolicy := "fire_once"
  executorGroupID := "group"
  executorHandler := "__docker__"
  scriptLanguage := "docker"
  scriptSource := "image"
  timeoutSeconds := 30
  maxRetries := 0
  maxConcurrentRuns := 1
  maxCatchUp := 10
  callbackTimeoutSeconds := 3600
  maxQueueSize := 1000
  enabled := true
  version := 1

def createImage : Draw × Call :=
  (⟨"", "v1", false⟩, .create ⟨imageJob, some ⟨"registry.example", "robot", "secret", true⟩, false⟩)

def updateToShell : Draw × Call :=
  (⟨"", "v2", false⟩, .update ⟨{ imageJob with
    executorHandler := "__script__", scriptLanguage := "shell", scriptSource := "true" },
    none, false⟩)

/-- The shell job keeps the credentials and is dispatched with them. -/
theorem shell_job_with_credentials :
    let t := run plainLibrary ⟨[], []⟩ [createImage, updateToShell]
    ¬ CredentialsOnDocker t ∧ ∃ row ∈ t.jobs, ∃ job, scanJob plainLibrary row = .ok job ∧
      (dispatchedAuth job).isSome ∧ job.scriptLanguage = "shell" := by
  refine ⟨by decide +kernel, ?_⟩
  exact ⟨_, List.mem_cons_self .., _, rfl, rfl, rfl⟩

def updateImage : Draw × Call :=
  (⟨"", "v2", false⟩, .update ⟨{ imageJob with scriptSource := "image:2" }, none, false⟩)

def rollbackImage : Draw × Call :=
  (⟨"", "v3", false⟩, .rollbackScriptVersion "tenant" "job" "v1" 2 "")

theorem image_job_with_credentials :
    let t := run plainLibrary ⟨[], []⟩ [createImage, updateImage, rollbackImage]
    t.versions.length = 3 ∧ (t.jobs.map (·.encryptedDockerRegistryAuth.isSome)) = [true] ∧
      CredentialsOnDocker t :=
  ⟨by decide +kernel, by decide +kernel, (registry_credentials_on_docker plainLibrary
    [createImage, updateImage, rollbackImage]
    ⟨trivial, by decide +kernel, trivial, trivial⟩).1⟩

end GoScheduler.Core.JobService
