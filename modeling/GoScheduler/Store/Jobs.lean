import GoScheduler.Store.Scheduler
import GoScheduler.Text.Space

/-! Creation and editing of jobs and of their dependencies. A request carries the job row
it wants together with the plain secrets, which the store seals. -/
namespace GoScheduler.Store
open ReadCommitted Schedule

structure Secrets where
  headers : String := "{}"
  dockerRegistryAuth : Option String := none
deriving DecidableEq, Repr

def sealColumn (cipher : Cipher) (plain : String) (failed : StoreError) :
    Except StoreError Sealed :=
  match cipher.encrypt plain with
  | some (encrypted, version) => .ok ⟨encrypted, some version⟩
  | none => .error failed

def sealRegistryAuth (env : Env) (auth : Option String) : Except StoreError Sealed :=
  match auth, env.cipher with
  | none, _ => .ok {}
  | some _, none => .error .registryAuthRequiresCipher
  | some plain, some cipher => sealColumn cipher plain .encryptRegistryAuth

def sealSecrets (env : Env) (s : Secrets) (j : Job) : Except StoreError Job := do
  let auth ← sealRegistryAuth env s.dockerRegistryAuth
  match env.cipher with
  | none => .ok { j with
      headers := s.headers, encryptedHeaders := {}, dockerRegistryAuth := auth }
  | some cipher =>
      let encrypted ← sealColumn cipher s.headers .encryptHeaders
      .ok { j with headers := "{}", encryptedHeaders := encrypted, dockerRegistryAuth := auth }

def atLeastOne (n default : ℕ) : ℕ := if n < 1 then default else n

def withDefaults (j : Job) : Job :=
  { j with
    overlapPolicy := canonicalBlockPolicy j.overlapPolicy
    maxConcurrentRuns := atLeastOne j.maxConcurrentRuns 1
    maxCatchUp := atLeastOne j.maxCatchUp 10
    callbackTimeoutSeconds := atLeastOne j.callbackTimeoutSeconds 3600
    maxQueueSize := atLeastOne j.maxQueueSize 1000 }

def nextArgument (enabled : Bool) (t : Int) : Option Int :=
  if enabled && t ≠ zeroTime then some (timestamp t) else none

def scheduleNext (env : Env) (j : Job) (after : Int) : Tx Int :=
  match next env.calendar j.scheduleType j.scheduleExpression j.timezone after with
  | .ok t => pure t
  | .error e => .fail (.schedule e)

def insertJobScriptVersion (j : Job) (remark : String) : Tx Unit := do
  let id ← newUUID
  let latest ← select fun d =>
    (((jobScriptVersions d).filter fun v => v.jobID == j.id).map
      JobScriptVersion.revision).foldl max 0
  insertRow (.jobScriptVersion id) ⟨j.id, latest + 1, j.scriptLanguage, j.scriptSource, remark⟩

-- The end of `CreateJob`, from the identifier on; a caller may also bring one.
def storeNewJob (env : Env) (j : Job) (t : Int) (secrets : Secrets) (id : ℕ) : Tx Job := do
  let stored ← liftExcept (sealSecrets env secrets j)
  let row := { stored with
    id := id, nextRunAt := nextArgument j.enabled t, lastRunAt := none, version := 1 }
  insertRow (.job id) row
  .when (row.scriptLanguage ≠ "") (insertJobScriptVersion row "initial version")
  pure row

def createJob (env : Env) (request : Job) (secrets : Secrets) : Tx Job := do
  let j := withDefaults request
  let goNow ← timeNow
  let t ← scheduleNext env j goNow
  let id ← newUUID
  storeNewJob env j t secrets id

def updateJob (env : Env) (request : Job) (secrets : Secrets) : Tx Job := do
  let j := { request with overlapPolicy := canonicalBlockPolicy request.overlapPolicy }
  let goNow ← timeNow
  let t ← scheduleNext env j goNow
  let stored ← liftExcept (sealSecrets env secrets j)
  match ← lockJob j.id fun row => row.tenantID == j.tenantID with
  | none => .fail .conflict
  | some current =>
      let _ ← liftExcept (scanJob env current)
      if current.version ≠ j.version then .fail .conflict else
      match ← updateJobRow j.id (fun row => row.tenantID == j.tenantID) fun row =>
          { stored with
            id := row.id
            nextRunAt := nextArgument j.enabled t
            lastRunAt := row.lastRunAt
            version := row.version + 1 } with
      | none => .fail .notFound
      | some row =>
          .when ((current.scriptLanguage ≠ j.scriptLanguage ∨
              current.scriptSource ≠ j.scriptSource) ∧ j.scriptLanguage ≠ "")
            (insertJobScriptVersion row "job update")
          pure row

def nextRunForEnabledState (env : Env) (j : Job) (enabled : Bool) (goNow : Int) :
    Tx (Option Int) :=
  if !enabled then pure none else do
    let t ← scheduleNext env j goNow
    pure (nextArgument true t)

def setJobEnabled (env : Env) (tenantID id : ℕ) (enabled : Bool) (version : ℕ) : Tx Job := do
  match ← lockJob id fun row => row.tenantID == tenantID with
  | none => .fail .notFound
  | some job =>
      let _ ← liftExcept (scanJob env job)
      if job.version ≠ version then .fail .conflict
      else if job.enabled = enabled then pure job
      else
        let goNow ← timeNow
        let nextRunAt ← nextRunForEnabledState env job enabled goNow
        match ← updateJobRow id (fun row => row.tenantID == tenantID) fun row =>
            { row with enabled := enabled, nextRunAt := nextRunAt, version := row.version + 1 } with
        | none => .fail .notFound
        | some row => liftExcept (scanJob env row)

section Scripts

def createNamedJob (env : Env) (id : ℕ) (request : Job) (secrets : Secrets) : Tx Job := do
  let j := withDefaults request
  let goNow ← timeNow
  let t ← scheduleNext env j goNow
  storeNewJob env j t secrets id

/-- The versions of a job are looked up by their identifier; their tenant is that of the job. -/
def scriptVersionOf (jobID versionID : ℕ) (d : Db) : Option JobScriptVersion :=
  (d.row (.jobScriptVersion versionID)).filter fun v => v.jobID == jobID

def rollbackJobScriptVersion (env : Env) (tenantID jobID versionID jobVersion : ℕ)
    (remark : String) : Tx Job := do
  let remark := Text.trimSpace remark
  if 200 < remark.utf8ByteSize then .fail .remarkTooLong else
  match ← lockJob jobID fun row => row.tenantID == tenantID with
  | none => .fail .notFound
  | some job =>
      let _ ← liftExcept (scanJob env job)
      if job.version ≠ jobVersion then .fail .conflict else
      match ← select (scriptVersionOf jobID versionID) with
      | none => .fail .notFound
      | some target =>
          match ← updateJobRow jobID (fun row => row.tenantID == tenantID) fun row =>
              { row with
                scriptLanguage := target.scriptLanguage
                scriptSource := target.scriptSource
                version := row.version + 1 } with
          | none => .fail .notFound
          | some row =>
              let _ ← liftExcept (scanJob env row)
              insertJobScriptVersion row
                (if remark = "" then "rollback to revision " ++ toString target.revision
                  else remark)
              pure row

/-- The rows that refer to a job and go with it, `ON DELETE CASCADE`. -/
def referringToJob (jobID : ℕ) (d : Db) : List Key := d.keys.filter fun
  | .jobScriptVersion id => (d.row (.jobScriptVersion id)).any fun v => v.jobID == jobID
  | .run id => (d.row (.run id)).any fun r => r.jobID == jobID
  | .dependency parent child => parent == jobID || child == jobID
  | .dispatch _ child => child == jobID
  | _ => false

def deleteJob (tenantID id version : ℕ) : Tx Unit := do
  let deleted ← .exec (.delete (V := Row) (Key.job id) fun row =>
    row.tenantID == tenantID && row.version == version)
  if !deleted then .fail .conflict else
  let keys ← select (referringToJob id)
  .forEach keys fun k => do
    let _ ← .exec (.delete (V := Row) k fun _ => true)
    pure ()

end Scripts

section Dependencies

def childrenOf (d : Db) (parentJobID : ℕ) : List ℕ :=
  ((dependencies d).filter fun e => e.parentJobID == parentJobID).map Dependency.childJobID

/-- The recursive query: `UNION` with the children of the rows found so far, until
nothing is added. A round that adds nothing new ends the search, so as many rounds as
there are edges suffice. -/
def descendants (d : Db) : ℕ → List ℕ → List ℕ
  | 0, found => found
  | rounds + 1, found => descendants d rounds (found ++ (found.flatMap (childrenOf d)).dedup).dedup

def reaches (d : Db) (source target : ℕ) : Bool :=
  (descendants d (dependencies d).length (childrenOf d source).dedup).contains target

def setJobDependencies (tenantID parentJobID : ℕ) (childJobIDs : List ℕ) : Tx Unit := do
  let count ← select fun d => (jobs d).countP fun j =>
    j.tenantID == tenantID && (parentJobID :: childJobIDs).contains j.id
  if count ≠ childJobIDs.length + 1 then .fail .notFound else
  let old ← select fun d => ((dependencies d).filter fun e =>
    e.tenantID == tenantID && e.parentJobID == parentJobID).map Dependency.childJobID
  .forEach old fun childID => do
    let _ ← .exec (.delete (V := Row) (Key.dependency parentJobID childID) fun e =>
      e.tenantID == tenantID)
    pure ()
  .forEach childJobIDs fun childID => do
    if childID = parentJobID then .fail .dependencyCycle else
    if ← select fun d => reaches d childID parentJobID then .fail .dependencyCycle
    else insertRow (.dependency parentJobID childID) ⟨tenantID, parentJobID, childID⟩

end Dependencies

end GoScheduler.Store
