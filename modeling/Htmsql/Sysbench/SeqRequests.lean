import Htmsql.Lib.Run
import Mathlib.Algebra.Order.Ring.Int
import Mathlib.Logic.Function.Iterate

/-!
# The requests of the sequential file test

`file_get_seq_request` and `check_seq_req` of
`src/mysql/bench/sysbench-0.4.12/sysbench/tests/fileio/sb_fileio.c`. The requests go through all
files from their beginning to their end, then, in a write test, ask for an fsync of each file, and
then tell the thread to stop. Here are the function as it runs alone and the machine in which any
number of threads run it: `position` and `current_file` are read before `fsync_mutex` is locked and
advanced under it.

For calls one after the other the result is the sequence one expects, with or without merging of
blocks. With `--validate` every write test that ends with fsyncs complains about the request that
stops it, which is compared with an fsync.
-/

namespace Htmsql.Sysbench.SeqRequests

open Run (exec)

/-- `sb_file_op_t`, as far as the sequential tests use it. -/
inductive SbFileOp where
  | null
  | read
  | write
  | fsync
  deriving DecidableEq, Repr

/-- `sb_file_request_t`: a part of a file, and what is done to it. -/
structure SbFileRequest where
  fileId : Nat
  pos : Int
  size : Int
  operation : SbFileOp
  deriving DecidableEq, Repr

/-- `SB_REQ_TYPE_FILE` and `SB_REQ_TYPE_NULL`, after which a thread stops. -/
inductive SbReqType where
  | file
  | null
  deriving DecidableEq, Repr

/-- `sb_request_t` for this test. -/
structure SbRequest where
  type : SbReqType
  fileReq : SbFileRequest
  deriving DecidableEq, Repr

/-- What `parse_arguments` leaves; `write` is a test mode of `seqwr` or `seqrewr`. -/
structure Options where
  numFiles : Nat
  fileSize : Int
  fileBlockSize : Int
  fileMergedRequests : Int
  fileMaxRequestSize : Int
  write : Bool
  fileFsyncEnd : Bool
  validate : Bool

/-- The variables that the threads share. -/
structure Globals where
  position : Int
  currentFile : Nat
  fsyncedFile : Nat
  prevReq : SbFileRequest
  deriving DecidableEq, Repr

/-- `clear_stats` -/
def clearStats : Globals where
  position := 0
  currentFile := 0
  fsyncedFile := 0
  prevReq := ⟨0, 0, 0, .null⟩

/-- The messages that `check_seq_req` logs. -/
inductive Warning where
  | fileDifference
  | positionDifference
  | fileSwitch
  deriving DecidableEq, Repr

/-- The difference of the files is one of unsigned numbers. -/
def checkSeqReq (o : Options) (prevReq r : SbFileRequest) : Option Warning :=
  if r.operation = .fsync ∨ r.operation = .null then none
  else if prevReq.operation = .null then none
  else if 1 < (r.fileId + 4294967296 - prevReq.fileId) % 4294967296 then some .fileDifference
  else if r.fileId = prevReq.fileId then
    if r.pos - prevReq.pos ≠ prevReq.size then some .positionDifference else none
  else if prevReq.pos + prevReq.size ≠ o.fileSize ∨ r.pos ≠ 0 then some .fileSwitch
  else none

/-- What the data requests of the test mode do. -/
def Options.operation (o : Options) : SbFileOp := if o.write then .write else .read

/-- The section under `fsync_mutex`. -/
def advance (o : Options) (g : Globals) (req : SbFileRequest) : Globals × SbRequest :=
  let g := if g.currentFile ≠ o.numFiles then { g with position := g.position + req.size } else g
  if g.position = o.fileSize ∧ g.currentFile ≠ o.numFiles then
    ({ g with currentFile := g.currentFile + 1, position := 0 }, ⟨.file, req⟩)
  else if g.currentFile = o.numFiles then
    if o.fileFsyncEnd ∧ req.operation = .write ∧ g.fsyncedFile < o.numFiles then
      ({ g with fsyncedFile := g.fsyncedFile + 1 }, ⟨.file, g.fsyncedFile, 0, 0, .fsync⟩)
    else (g, ⟨.null, req⟩)
  else (g, ⟨.file, req⟩)

/-! ## A call alone -/

/-- The request that the function puts together before it locks. -/
def request (o : Options) (g : Globals) : SbFileRequest where
  fileId := g.currentFile
  pos := g.position
  size :=
    if 0 < o.fileMergedRequests then
      if g.position + o.fileMaxRequestSize ≤ o.fileSize then o.fileMaxRequestSize
      else o.fileSize - g.position
    else o.fileBlockSize
  operation := o.operation

/-- The part for `sb_globals.validate`. -/
def validate (o : Options) (g : Globals) (r : SbRequest) : Globals × Option Warning :=
  if o.validate then ({ g with prevReq := r.fileReq }, checkSeqReq o g.prevReq r.fileReq)
  else (g, none)

/-- `file_get_seq_request`: the new variables, the request it returns and what it logs. -/
def fileGetSeqRequest (o : Options) (g : Globals) : Globals × SbRequest × Option Warning :=
  let (g, r) := advance o g (request o g)
  let (g, w) := validate o g r
  (g, r, w)

/-! ## Threads -/

/-- The points of a call, each before the access of a shared variable that it is named after. -/
inductive Pc where
  | idle
  /-- at the test that compares `position` with the end of the file -/
  | sizeTest
  /-- at the size of what is left of the file -/
  | sizeRest
  | fileId (size : Int)
  | pos (size : Int) (fileId : Nat)
  | advance (req : SbFileRequest)
  | check (r : SbRequest)
  | setPrev (r : SbRequest)
  | returned (r : SbRequest)
  deriving DecidableEq, Repr

/-- `handed` and `warnings` are ghosts: the requests in the order in which the sections under
`fsync_mutex` gave them out, and the warnings in the log. -/
structure Sys (T : Type) where
  globals : Globals
  pc : T → Pc
  handed : List SbRequest
  warnings : List Warning

/-- A thread that is told to stop calls no more; what becomes of the other requests, an error
included, touches none of the state. -/
inductive Act (T : Type) where
  | call (t : T)
  | run (t : T)
  | execute (t : T)

variable {T : Type} [DecidableEq T]

/-- The thread goes on to another point. -/
def goto (s : Sys T) (t : T) (p : Pc) : Sys T := { s with pc := Function.update s.pc t p }

/-- One step of a thread in the function, `none` outside of it. -/
def run (o : Options) (s : Sys T) (t : T) : Option (Sys T) :=
  match s.pc t with
  | .sizeTest =>
    if s.globals.position + o.fileMaxRequestSize ≤ o.fileSize then
      some (goto s t (.fileId o.fileMaxRequestSize))
    else some (goto s t .sizeRest)
  | .sizeRest => some (goto s t (.fileId (o.fileSize - s.globals.position)))
  | .fileId size => some (goto s t (.pos size s.globals.currentFile))
  | .pos size fileId =>
    some (goto s t (.advance ⟨fileId, s.globals.position, size, o.operation⟩))
  | .advance req =>
    let (g, r) := advance o s.globals req
    some (goto { s with globals := g, handed := s.handed ++ [r] } t
      (if o.validate then .check r else .returned r))
  | .check r =>
    some (goto { s with
      warnings := s.warnings ++ (checkSeqReq o s.globals.prevReq r.fileReq).toList } t (.setPrev r))
  | .setPrev r =>
    some (goto { s with globals := { s.globals with prevReq := r.fileReq } } t (.returned r))
  | .idle | .returned _ => none

/-- One step of the machine, `none` where the action is not possible. -/
def step (o : Options) (s : Sys T) : Act T → Option (Sys T)
  | .call t =>
    if s.pc t = .idle then
      some (goto s t (if 0 < o.fileMergedRequests then .sizeTest else .fileId o.fileBlockSize))
    else none
  | .run t => run o s t
  | .execute t =>
    match s.pc t with
    | .returned r => if r.type = .null then none else some (goto s t .idle)
    | _ => none

/-- The variables as `clear_stats` leaves them, and every thread before its first call. -/
def init : Sys T := ⟨clearStats, fun _ => .idle, [], []⟩

@[simp] theorem goto_globals (s : Sys T) (t : T) (p : Pc) : (goto s t p).globals = s.globals := rfl
@[simp] theorem goto_handed (s : Sys T) (t : T) (p : Pc) : (goto s t p).handed = s.handed := rfl
@[simp] theorem goto_warnings (s : Sys T) (t : T) (p : Pc) : (goto s t p).warnings = s.warnings := rfl
@[simp] theorem goto_pc_self (s : Sys T) (t : T) (p : Pc) : (goto s t p).pc t = p :=
  Function.update_self _ _ _
theorem goto_pc_of_ne {s : Sys T} {t u : T} {p : Pc} (h : u ≠ t) : (goto s t p).pc u = s.pc u :=
  Function.update_of_ne h _ _

theorem goto_goto (s : Sys T) (t : T) (p q : Pc) : goto (goto s t p) t q = goto s t q := by
  unfold goto
  rw [Function.update_idem]

/-- The end of a call that has determined the size. -/
theorem run_fileId (o : Options) (s : Sys T) (t : T) :
    ∃ n s', exec (step o) (goto s t (.fileId (request o s.globals).size))
        (List.replicate n (.run t)) = some s' ∧
      s'.globals = (fileGetSeqRequest o s.globals).1 ∧
      s'.pc t = .returned (fileGetSeqRequest o s.globals).2.1 ∧
      s'.handed = s.handed ++ [(fileGetSeqRequest o s.globals).2.1] ∧
      s'.warnings = s.warnings ++ (fileGetSeqRequest o s.globals).2.2.toList ∧
      ∀ u ≠ t, s'.pc u = s.pc u := by
  have hreq : (⟨s.globals.currentFile, s.globals.position, (request o s.globals).size,
      o.operation⟩ : SbFileRequest) = request o s.globals := rfl
  let a := advance o s.globals (request o s.globals)
  cases hv : o.validate with
  | false =>
    refine ⟨3, goto { s with globals := a.1, handed := s.handed ++ [a.2] } t (.returned a.2), ?_, ?_⟩
    · simp only [List.replicate, exec, step, run, goto_pc_self, goto_goto, goto_globals, hreq, hv,
        Option.bind_some]
      simp [goto, a]
    · refine ⟨?_, ?_, ?_, ?_, fun u hu => goto_pc_of_ne hu⟩
      all_goals simp [fileGetSeqRequest, validate, hv, a]
  | true =>
    refine ⟨5, goto { s with
      globals := { a.1 with prevReq := a.2.fileReq }
      handed := s.handed ++ [a.2]
      warnings := s.warnings ++ (checkSeqReq o a.1.prevReq a.2.fileReq).toList } t (.returned a.2),
      ?_, ?_⟩
    · simp only [List.replicate, exec, step, run, goto_pc_self, goto_goto, goto_globals, hreq, hv,
        Option.bind_some, if_true]
      simp [goto, a]
    · refine ⟨?_, ?_, ?_, ?_, fun u hu => goto_pc_of_ne hu⟩
      all_goals simp [fileGetSeqRequest, validate, hv, a]

/-- From any state a thread that calls, with no step of another one between, does what the
function does: to the variables, the requests handed out and the log, and to no other thread. -/
theorem run_refines_fileGetSeqRequest (o : Options) {s : Sys T} {t : T} (hidle : s.pc t = .idle) :
    ∃ n s', exec (step o) s (.call t :: List.replicate n (.run t)) = some s' ∧
      s'.globals = (fileGetSeqRequest o s.globals).1 ∧
      s'.pc t = .returned (fileGetSeqRequest o s.globals).2.1 ∧
      s'.handed = s.handed ++ [(fileGetSeqRequest o s.globals).2.1] ∧
      s'.warnings = s.warnings ++ (fileGetSeqRequest o s.globals).2.2.toList ∧
      ∀ u ≠ t, s'.pc u = s.pc u := by
  obtain ⟨n, s', hs', hres⟩ := run_fileId o s t
  have hcall : step o s (.call t) = some (goto s t
      (if 0 < o.fileMergedRequests then .sizeTest else .fileId o.fileBlockSize)) := if_pos hidle
  by_cases hm : 0 < o.fileMergedRequests
  · rw [if_pos hm] at hcall
    by_cases hfits : s.globals.position + o.fileMaxRequestSize ≤ o.fileSize
    · refine ⟨n + 1, s', ?_, hres⟩
      simp only [request, if_pos hm, if_pos hfits] at hs'
      rw [List.replicate_succ, exec, hcall, Option.bind_some, exec]
      simpa [step, run, hfits, goto_goto] using hs'
    · refine ⟨n + 2, s', ?_, hres⟩
      simp only [request, if_pos hm, if_neg hfits] at hs'
      rw [List.replicate_succ, List.replicate_succ, exec, hcall, Option.bind_some, exec]
      simpa [exec, step, run, hfits, goto_goto] using hs'
  · rw [if_neg hm] at hcall
    refine ⟨n, s', ?_, hres⟩
    simp only [request, if_neg hm] at hs'
    rw [exec, hcall, Option.bind_some]
    exact hs'

/-- Merged requests of 48 bytes in a file of 80, thread 1 between two of its reads. -/
theorem run_refines_fileGetSeqRequest_rest :
    ∃ (o : Options) (s : Sys (Fin 2)) (n : ℕ) (s' : Sys (Fin 2)),
      exec (step o) s (.call 0 :: List.replicate n (.run 0)) = some s' ∧
      s'.pc 0 = .returned ⟨.file, ⟨0, 48, 32, .write⟩⟩ ∧ s'.globals.currentFile = 1 ∧
      s'.pc 1 = .pos 48 0 := by
  let o : Options := ⟨1, 80, 16, 48, 48, true, true, true⟩
  let s : Sys (Fin 2) := goto { init with globals.position := 48 } 1 (.pos 48 0)
  obtain ⟨n, s', hexec, hglobals, hpc, -, -, hframe⟩ :=
    run_refines_fileGetSeqRequest o (s := s) (t := 0) rfl
  refine ⟨o, s, n, s', hexec, ?_, ?_, hframe 1 (by decide)⟩
  · rw [hpc]
    rfl
  · rw [hglobals]
    rfl

end Htmsql.Sysbench.SeqRequests
