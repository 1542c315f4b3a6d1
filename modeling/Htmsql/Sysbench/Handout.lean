import Htmsql.Sysbench.SeqRequests
import Mathlib.Data.List.Induction
import Mathlib.Data.List.Nodup
import Mathlib.Tactic.Ring

/-!
# What the sequential file test hands out

The requests of calls that do not overlap, and those of any number of threads whose calls do. The
number of data requests is right in every run, and so are the fsyncs. But a thread that has read
`position` and is overtaken before it locks `fsync_mutex` gets a block that another thread has got,
and the block it moves `position` past goes to nobody.
-/

namespace Htmsql.Sysbench.SeqRequests

open Run (Reach)

/-- The files are not empty, and without merging they consist of whole blocks. -/
structure Options.Valid (o : Options) : Prop where
  numFiles : 0 < o.numFiles
  fileSize : 0 < o.fileSize
  fileBlockSize : 0 < o.fileBlockSize
  fileMaxRequestSize : 0 < o.fileMergedRequests → 0 < o.fileMaxRequestSize
  divides : ¬ 0 < o.fileMergedRequests → o.fileBlockSize ∣ o.fileSize

/-- The size of a request that is not the last one of its file. -/
def Options.requestSize (o : Options) : Int :=
  if 0 < o.fileMergedRequests then o.fileMaxRequestSize else o.fileBlockSize

/-- The number of data requests for one file, the last one counted though it may be shorter. -/
def Options.perFile (o : Options) : Nat :=
  ((o.fileSize + o.requestSize - 1) / o.requestSize).toNat

/-- The number of data requests. -/
def Options.total (o : Options) : Nat := o.numFiles * o.perFile

/-- The number of fsyncs. -/
def Options.fsyncs (o : Options) : Nat := if o.fileFsyncEnd ∧ o.write then o.numFiles else 0

/-- The data request with number `k`, counted through the files one after the other. -/
def tile (o : Options) (k : Nat) : SbFileRequest where
  fileId := k / o.perFile
  pos := o.requestSize * (k % o.perFile : Nat)
  size := min o.requestSize (o.fileSize - o.requestSize * (k % o.perFile : Nat))
  operation := o.operation

/-- The request for an fsync of a file. -/
def fsync (i : Nat) : SbFileRequest := ⟨i, 0, 0, .fsync⟩

/-! ## Positions -/

variable {o : Options}

theorem Options.Valid.requestSize (hv : o.Valid) : 0 < o.requestSize := by
  unfold Options.requestSize
  split
  · exact hv.fileMaxRequestSize ‹_›
  · exact hv.fileBlockSize

/-- The last request of a file begins in it and goes up to its end or beyond. -/
theorem Options.Valid.perFile (hv : o.Valid) :
    0 < o.perFile ∧ o.requestSize * o.perFile < o.fileSize + o.requestSize ∧
      o.fileSize ≤ o.requestSize * o.perFile := by
  have hpos := hv.requestSize
  have hsize := hv.fileSize
  have hdiv := Int.mul_ediv_add_emod (o.fileSize + o.requestSize - 1) o.requestSize
  have hmod := Int.emod_nonneg (o.fileSize + o.requestSize - 1) hpos.ne'
  have hlt := Int.emod_lt_of_pos (o.fileSize + o.requestSize - 1) hpos
  have hquot : 1 ≤ (o.fileSize + o.requestSize - 1) / o.requestSize :=
    (Int.le_ediv_iff_mul_le hpos).mpr (by omega)
  have hcast : (o.perFile : Int) = (o.fileSize + o.requestSize - 1) / o.requestSize :=
    Int.toNat_of_nonneg (by omega)
  rw [hcast]
  refine ⟨by omega, by omega, by omega⟩

/-- Where a request ends. -/
theorem Options.Valid.end_eq (hv : o.Valid) {q : Nat} (hq : q < o.perFile) :
    o.requestSize * (q : Int) < o.fileSize ∧
      o.requestSize * (q : Int) + min o.requestSize (o.fileSize - o.requestSize * (q : Int)) =
        if q + 1 = o.perFile then o.fileSize else o.requestSize * ((q + 1 : Nat) : Int) := by
  have hpos := hv.requestSize
  obtain ⟨-, hlt, hle⟩ := hv.perFile
  have hsucc : o.requestSize * ((q + 1 : Nat) : Int) = o.requestSize * (q : Int) + o.requestSize := by
    push_cast
    ring
  have hmono : ∀ n m : Nat, n ≤ m → o.requestSize * (n : Int) ≤ o.requestSize * (m : Int) :=
    fun n m h => mul_le_mul_of_nonneg_left (by exact_mod_cast h) hpos.le
  have hbegin : o.requestSize * (q : Int) < o.fileSize := by
    have := hmono (q + 1) o.perFile hq
    omega
  refine ⟨hbegin, ?_⟩
  split
  · rename_i hlast
    rw [← hlast] at hle
    omega
  · have := hmono (q + 1 + 1) o.perFile (by omega)
    push_cast at this
    rw [mul_add] at this
    push_cast at hsucc ⊢
    omega

theorem Options.Valid.min_eq (hv : o.Valid) (hm : ¬ 0 < o.fileMergedRequests) {q : Nat}
    (hq : q < o.perFile) :
    min o.requestSize (o.fileSize - o.requestSize * (q : Int)) = o.requestSize := by
  have hdvd : o.requestSize ∣ o.fileSize := by
    rw [Options.requestSize, if_neg hm]
    exact hv.divides hm
  have hbegin := (hv.end_eq hq).1
  exact min_eq_left (Int.le_of_dvd (by omega) (Int.dvd_sub hdvd (dvd_mul_right _ _)))

theorem request_eq (hv : o.Valid) {g : Globals} {q : Nat} (hq : q < o.perFile)
    (hpos : g.position = o.requestSize * (q : Int)) :
    request o g = ⟨g.currentFile, o.requestSize * (q : Int),
      min o.requestSize (o.fileSize - o.requestSize * (q : Int)), o.operation⟩ := by
  rw [request, hpos, SbFileRequest.mk.injEq]
  refine ⟨rfl, rfl, ?_, rfl⟩
  by_cases hm : 0 < o.fileMergedRequests
  · have hsize : o.requestSize = o.fileMaxRequestSize := if_pos hm
    rw [if_pos hm, ← hsize]
    split <;> omega
  · rw [if_neg hm, hv.min_eq hm hq, Options.requestSize, if_neg hm]

theorem succ_div_mod {n : Nat} (hn : 0 < n) (k : Nat) :
    (k + 1) / n = (if k % n + 1 = n then k / n + 1 else k / n) ∧
      (k + 1) % n = (if k % n + 1 = n then 0 else k % n + 1) := by
  have hk := Nat.div_add_mod k n
  have hlt := Nat.mod_lt k hn
  rw [Nat.div_mod_unique hn]
  split
  · refine ⟨?_, hn⟩
    rw [Nat.mul_succ]
    omega
  · exact ⟨by omega, by omega⟩

/-! ## The section under the mutex -/

/-- Before the end of the last file the request is given out, and the globals go on to the next
request, whichever was asked for. -/
theorem advance_of_lt (hv : o.Valid) {g : Globals} {k : Nat} (hk : k < o.total)
    (hfile : g.currentFile = k / o.perFile)
    (hpos : g.position = o.requestSize * (k % o.perFile : Nat)) {req : SbFileRequest}
    (hsize : req.size = min o.requestSize
      (o.fileSize - o.requestSize * (k % o.perFile : Nat))) :
    advance o g req = ({ g with
      currentFile := (k + 1) / o.perFile
      position := o.requestSize * ((k + 1) % o.perFile : Nat) }, ⟨.file, req⟩) := by
  obtain ⟨hper, -, -⟩ := hv.perFile
  have hend := (hv.end_eq (Nat.mod_lt k hper)).2
  have hne : g.currentFile ≠ o.numFiles := by
    rw [hfile]
    exact (Nat.div_lt_of_lt_mul (by rwa [Nat.mul_comm])).ne
  obtain ⟨hdiv, hmod⟩ := succ_div_mod hper k
  have hnext : g.position + req.size = if k % o.perFile + 1 = o.perFile then o.fileSize else
      o.requestSize * ((k % o.perFile + 1 : Nat) : Int) := by
    rw [hpos, hsize, hend]
  simp only [advance, ne_eq, hne, not_false_eq_true, if_true, if_false, and_true, hnext, hdiv, hmod]
  by_cases hlast : k % o.perFile + 1 = o.perFile
  · simp only [if_pos hlast, if_true, hfile]
    simp
  · have hinside : o.requestSize * ((k % o.perFile + 1 : Nat) : Int) ≠ o.fileSize :=
      (hv.end_eq (by have := Nat.mod_lt k hper; omega)).1.ne
    simp only [if_neg hlast, if_neg hinside, hfile]

theorem operation_eq_write : o.operation = .write ↔ o.write = true := by
  unfold Options.operation
  cases o.write <;> simp

theorem advance_of_total {g : Globals} (hfile : g.currentFile = o.numFiles) (req : SbFileRequest) :
    advance o g req =
      if o.fileFsyncEnd ∧ req.operation = .write ∧ g.fsyncedFile < o.numFiles then
        ({ g with fsyncedFile := g.fsyncedFile + 1 }, ⟨.file, fsync g.fsyncedFile⟩)
      else (g, ⟨.null, req⟩) := by
  simp [advance, hfile, fsync]

/-! ## Calls that do not overlap -/

/-- The request of call number `k`. -/
def handedOut (o : Options) (k : Nat) : SbRequest :=
  if k < o.total then ⟨.file, tile o k⟩
  else if k < o.total + o.fsyncs then ⟨.file, fsync (k - o.total)⟩
  else ⟨.null, tile o o.total⟩

/-- The warning of call number `k`. -/
def complaint (o : Options) (k : Nat) : Option Warning :=
  if o.validate ∧ o.total + o.fsyncs ≤ k then
    if k = o.total + o.fsyncs then if o.fsyncs = 0 then none else some .fileSwitch
    else some .positionDifference
  else none

/-- The request that the check compares with after `k` calls. -/
def prevAfter (o : Options) : Nat → SbFileRequest
  | 0 => clearStats.prevReq
  | k + 1 => if o.validate then (handedOut o k).fileReq else clearStats.prevReq

/-- The variables after `k` calls one after the other. -/
def stateAfter (o : Options) (k : Nat) : Globals where
  position := o.requestSize * (min k o.total % o.perFile : Nat)
  currentFile := min k o.total / o.perFile
  fsyncedFile := min (k - o.total) o.fsyncs
  prevReq := prevAfter o k

theorem total_div (hv : o.Valid) : o.total / o.perFile = o.numFiles :=
  Nat.mul_div_cancel _ hv.perFile.1

theorem request_stateAfter (hv : o.Valid) (k : Nat) :
    request o (stateAfter o k) = tile o (min k o.total) :=
  request_eq hv (Nat.mod_lt _ hv.perFile.1) rfl

theorem advance_stateAfter (hv : o.Valid) (k : Nat) :
    advance o (stateAfter o k) (request o (stateAfter o k)) =
      ({ stateAfter o (k + 1) with prevReq := prevAfter o k }, handedOut o k) := by
  rw [request_stateAfter hv]
  by_cases hk : k < o.total
  · have hmin : min k o.total = k := by omega
    have hmin' : min (k + 1) o.total = k + 1 := by omega
    have hfsynced : min (k - o.total) o.fsyncs = min (k + 1 - o.total) o.fsyncs := by omega
    rw [hmin, advance_of_lt hv hk (by rw [stateAfter, hmin]) (by rw [stateAfter, hmin]) rfl,
      handedOut, if_pos hk, stateAfter, stateAfter, hmin', hfsynced]
  · have hmin : min k o.total = o.total := by omega
    have hmin' : min (k + 1) o.total = o.total := by omega
    have hfile : (stateAfter o k).currentFile = o.numFiles := by
      rw [stateAfter, hmin]
      exact total_div hv
    have hcond : (o.fileFsyncEnd ∧ (tile o o.total).operation = .write ∧
        (stateAfter o k).fsyncedFile < o.numFiles) ↔ k < o.total + o.fsyncs := by
      have hfiles := hv.numFiles
      change _ ∧ o.operation = .write ∧ min (k - o.total) o.fsyncs < o.numFiles ↔ _
      rw [operation_eq_write, Options.fsyncs, ← and_assoc]
      split
      · rename_i hboth
        simp only [hboth, and_self, true_and]
        omega
      · rename_i hnot
        simp only [hnot, false_and, false_iff]
        omega
    rw [hmin, advance_of_total hfile, handedOut, if_neg hk, if_congr hcond rfl rfl]
    split
    · have hcount : min (k - o.total) o.fsyncs = k - o.total := by omega
      have hcount' : min (k + 1 - o.total) o.fsyncs = k - o.total + 1 := by omega
      simp only [stateAfter, hmin, hmin', hcount, hcount']
    · have hcount : min (k + 1 - o.total) o.fsyncs = min (k - o.total) o.fsyncs := by omega
      simp only [stateAfter, hmin, hmin', hcount]

theorem operation_ne (o : Options) : o.operation ≠ .fsync ∧ o.operation ≠ .null := by
  unfold Options.operation
  cases o.write <;> simp

/-- The check of a data request after a request that is not the first. -/
theorem checkSeqReq_data {prev r : SbFileRequest} (hprev : prev.operation ≠ .null)
    (hr : r.operation = o.operation) :
    checkSeqReq o prev r =
      if 1 < (r.fileId + 4294967296 - prev.fileId) % 4294967296 then some .fileDifference
      else if r.fileId = prev.fileId then
        if r.pos - prev.pos ≠ prev.size then some .positionDifference else none
      else if prev.pos + prev.size ≠ o.fileSize ∨ r.pos ≠ 0 then some .fileSwitch
      else none := by
  have hop : ¬ (r.operation = .fsync ∨ r.operation = .null) := by
    rw [hr]
    exact not_or.mpr (operation_ne o)
  rw [checkSeqReq, if_neg hop, if_neg hprev]

/-- Requests that follow each other pass the check. -/
theorem checkSeqReq_tile (hv : o.Valid) (k : Nat) :
    checkSeqReq o (tile o k) (tile o (k + 1)) = none := by
  obtain ⟨hper, -, -⟩ := hv.perFile
  have hend := (hv.end_eq (Nat.mod_lt k hper)).2
  obtain ⟨hdiv, hmod⟩ := succ_div_mod hper k
  rw [checkSeqReq_data (operation_ne o).2 rfl]
  simp only [tile, hdiv, hmod]
  by_cases hlast : k % o.perFile + 1 = o.perFile
  · rw [if_pos hlast] at hend
    simp only [if_pos hlast, hend]
    rw [if_neg (by omega), if_neg (by omega)]
    simp
  · rw [if_neg hlast] at hend
    simp only [if_neg hlast]
    rw [if_neg (by omega), if_pos trivial, if_neg]
    omega

theorem checkSeqReq_prevAfter (hv : o.Valid) (hval : o.validate = true) (k : Nat) :
    checkSeqReq o (prevAfter o k) (handedOut o k).fileReq = complaint o k := by
  obtain ⟨hper, -, -⟩ := hv.perFile
  have htotal : 0 < o.total := Nat.mul_pos hv.numFiles hper
  have hprev : ∀ j, prevAfter o (j + 1) = (handedOut o j).fileReq := fun j => if_pos hval
  have hsize := hv.fileSize
  by_cases hk : k < o.total
  · have hquiet : complaint o k = none := if_neg (by omega)
    rw [hquiet, handedOut, if_pos hk]
    cases k with
    | zero => exact (if_neg (not_or.mpr (operation_ne o))).trans (if_pos rfl)
    | succ j =>
      rw [hprev, handedOut, if_pos (by omega)]
      exact checkSeqReq_tile hv j
  · obtain ⟨j, rfl⟩ : ∃ j, k = j + 1 := ⟨k - 1, by omega⟩
    rw [hprev]
    by_cases hf : j + 1 < o.total + o.fsyncs
    · have hquiet : complaint o (j + 1) = none := if_neg (by omega)
      rw [hquiet, handedOut, handedOut, if_neg hk, if_pos hf]
      rfl
    · have hloud : complaint o (j + 1) = if j + 1 = o.total + o.fsyncs then
          if o.fsyncs = 0 then none else some .fileSwitch else some .positionDifference :=
        if_pos ⟨hval, by omega⟩
      have hstop : (handedOut o (j + 1)).fileReq = tile o o.total := by
        rw [handedOut, if_neg hk, if_neg hf]
      rw [hloud, hstop]
      by_cases hfirst : j + 1 = o.total + o.fsyncs
      · rw [if_pos hfirst]
        by_cases hnone : o.fsyncs = 0
        · -- the last request of the last file comes before
          have hlast : handedOut o j = ⟨.file, tile o j⟩ := if_pos (by omega)
          have hj : o.total = j + 1 := by omega
          rw [if_pos hnone, hlast, hj]
          exact checkSeqReq_tile hv j
        · -- the fsync of the last file comes before
          have hcount : o.fsyncs = o.numFiles := by
            by_cases hboth : o.fileFsyncEnd ∧ o.write
            · exact if_pos hboth
            · exact (hnone (if_neg hboth)).elim
          have hlast : handedOut o j = ⟨.file, fsync (j - o.total)⟩ := by
            rw [handedOut, if_neg (by omega), if_pos (by omega)]
          have hid : j - o.total + 1 = o.numFiles := by omega
          rw [if_neg hnone, hlast, checkSeqReq_data (by simp [fsync]) rfl]
          simp only [fsync, tile, total_div hv]
          rw [if_neg (by omega), if_neg (by omega), if_pos]
          left
          omega
      · have hlast : (handedOut o j).fileReq = tile o o.total := by
          rw [handedOut, if_neg (by omega), if_neg (by omega)]
        have hpos := hv.requestSize
        have hmod : o.total % o.perFile = 0 := Nat.mul_mod_left _ _
        rw [if_neg hfirst, hlast, checkSeqReq_data (operation_ne o).2 rfl, if_neg (by omega),
          if_pos rfl, if_pos]
        simp only [tile, hmod]
        push_cast
        omega

theorem fileGetSeqRequest_stateAfter (hv : o.Valid) (k : Nat) :
    fileGetSeqRequest o (stateAfter o k) = (stateAfter o (k + 1), handedOut o k, complaint o k) := by
  rw [fileGetSeqRequest, advance_stateAfter hv]
  cases hval : o.validate with
  | false => cases k <;> simp [validate, hval, complaint, stateAfter, prevAfter]
  | true => simp [validate, hval, ← checkSeqReq_prevAfter hv hval, stateAfter, prevAfter]

/-- The calls go through the files from the beginning to the end, with the last request of a file
cut to what is left, then through the fsyncs of a write test. No warning is about any of these.
The first call that tells the thread to stop gives one if it comes after fsyncs, and every later
such call gives one. -/
theorem seqRequests_alone (hv : o.Valid) (k : Nat) :
    (fileGetSeqRequest o ((fun g => (fileGetSeqRequest o g).1)^[k] clearStats)).2 =
      (handedOut o k, complaint o k) := by
  have hstate : (fun g => (fileGetSeqRequest o g).1)^[k] clearStats = stateAfter o k := by
    induction k with
    | zero =>
      have hfirst : min 0 o.total = 0 := by omega
      rw [Function.iterate_zero_apply, stateAfter, hfirst, Nat.zero_mod, Nat.zero_div]
      simp [clearStats, prevAfter]
    | succ k ih => rw [Function.iterate_succ_apply', ih, fileGetSeqRequest_stateAfter hv]
  rw [hstate, fileGetSeqRequest_stateAfter hv]

/-- A write test of two files of three blocks, two blocks to a request, with fsyncs at the end. -/
def twoFiles : Options where
  numFiles := 2
  fileSize := 3
  fileBlockSize := 1
  fileMergedRequests := 2
  fileMaxRequestSize := 2
  write := true
  fileFsyncEnd := true
  validate := true

theorem twoFiles_valid : twoFiles.Valid where
  numFiles := by decide
  fileSize := by decide
  fileBlockSize := by decide
  fileMaxRequestSize _ := by decide
  divides h := (h (by decide)).elim

/-- The seventh call stops the thread and gives a warning. -/
theorem seqRequests_alone_last :
    (fileGetSeqRequest twoFiles ((fun g => (fileGetSeqRequest twoFiles g).1)^[6] clearStats)).2 =
      (⟨.null, 2, 0, 2, .write⟩, some .fileSwitch) :=
  (seqRequests_alone twoFiles_valid 6).trans (by decide)

/-! ## Calls that overlap -/

/-- What a thread has read, when `p` data requests have been given out. -/
def Pc.Ready (o : Options) (p : Nat) : Pc → Prop
  | .sizeTest | .sizeRest => False
  | .fileId size => size = o.requestSize
  | .pos size id => size = o.requestSize ∧ id ≤ p / o.perFile
  | .advance req => ∃ k ≤ p, req = tile o k
  | _ => True

/-- `ks` are the numbers of the data requests, in the order in which they were given out, `m` is the
number of fsyncs. -/
structure Inv {T : Type} (o : Options) (s : Sys T) (ks : List Nat) (m : Nat)
    (nulls : List SbFileRequest) : Prop where
  handed : s.handed = ks.map (fun k => ⟨.file, tile o k⟩) ++
    (List.range m).map (fun i => ⟨.file, fsync i⟩) ++ nulls.map (⟨.null, ·⟩)
  position : s.globals.position = o.requestSize * (ks.length % o.perFile : Nat)
  currentFile : s.globals.currentFile = ks.length / o.perFile
  fsyncedFile : s.globals.fsyncedFile = m
  behind : ∀ i k : Nat, ks[i]? = some k → k ≤ i
  length_le : ks.length ≤ o.total
  fsyncs_le : m ≤ o.fsyncs
  phase : 0 < m ∨ nulls ≠ [] → ks.length = o.total
  stopped : nulls ≠ [] → m = o.fsyncs
  ready : ∀ t, (s.pc t).Ready o ks.length

theorem Pc.Ready.mono {p p' : Nat} (hp : p ≤ p') {q : Pc} (h : q.Ready o p) : q.Ready o p' := by
  cases q with
  | pos size id => exact ⟨h.1, h.2.trans (Nat.div_le_div_right hp)⟩
  | advance req =>
    obtain ⟨k, hk, hreq⟩ := h
    exact ⟨k, hk.trans hp, hreq⟩
  | _ => exact h

variable {T : Type} [DecidableEq T] {s s' : Sys T} {t : T} {ks : List Nat} {m : Nat}
  {nulls : List SbFileRequest}

theorem ready_goto {s : Sys T} {p : Nat} (h : ∀ u, (s.pc u).Ready o p) {q : Pc}
    (hq : q.Ready o p) (u : T) : ((goto s t q).pc u).Ready o p := by
  by_cases hu : u = t
  · subst hu
    rw [goto_pc_self]
    exact hq
  · rw [goto_pc_of_ne hu]
    exact h u

theorem Inv.goto (h : Inv o s ks m nulls) {q : Pc} (hq : q.Ready o ks.length) :
    Inv o (goto s t q) ks m nulls :=
  ⟨h.handed, h.position, h.currentFile, h.fsyncedFile, h.behind, h.length_le, h.fsyncs_le, h.phase,
    h.stopped, ready_goto h.ready hq⟩

omit [DecidableEq T] in
theorem inv_init : Inv o (init : Sys T) [] 0 [] where
  handed := rfl
  position := by
    rw [List.length_nil, Nat.zero_mod, Nat.cast_zero, mul_zero]
    rfl
  currentFile := (Nat.zero_div _).symm
  fsyncedFile := rfl
  behind _ _ h := by cases h
  length_le := Nat.zero_le _
  fsyncs_le := Nat.zero_le _
  phase h := h.elim (fun h => by cases h) fun h => (h rfl).elim
  stopped h := (h rfl).elim
  ready _ := trivial

theorem Inv.advance (hv : o.Valid) (hm : ¬ 0 < o.fileMergedRequests) (h : Inv o s ks m nulls)
    {k : Nat} (hk : k ≤ ks.length) {q : Pc} (hq : ∀ p, q.Ready o p) :
    ∃ ks' m' nulls', Inv o (SeqRequests.goto { s with
      globals := (SeqRequests.advance o s.globals (tile o k)).1
      handed := s.handed ++ [(SeqRequests.advance o s.globals (tile o k)).2] } t q) ks' m' nulls' := by
  have hper := hv.perFile.1
  by_cases hlt : ks.length < o.total
  · -- a data request; there are no others yet
    have hsize : (tile o k).size = min o.requestSize
        (o.fileSize - o.requestSize * (ks.length % o.perFile : Nat)) := by
      rw [hv.min_eq hm (Nat.mod_lt _ hper)]
      exact hv.min_eq hm (Nat.mod_lt _ hper)
    have hnulls : nulls = [] := by
      by_contra hne
      have := h.phase (Or.inr hne)
      omega
    have hm0 : m = 0 := by
      by_contra hne
      have := h.phase (Or.inl (by omega))
      omega
    subst hnulls hm0
    rw [advance_of_lt hv hlt h.currentFile h.position hsize]
    refine ⟨ks ++ [k], 0, [], ?_, ?_, ?_, h.fsyncedFile, ?_, ?_, h.fsyncs_le, ?_, h.stopped, ?_⟩
    · change s.handed ++ _ = _
      rw [h.handed]
      simp
    · rw [List.length_append, List.length_singleton]
      rfl
    · rw [List.length_append, List.length_singleton]
      rfl
    · intro i j hj
      by_cases hi : i < ks.length
      · rw [List.getElem?_append_left hi] at hj
        exact h.behind i j hj
      · rw [List.getElem?_append_right (by omega), List.getElem?_singleton] at hj
        split at hj
        · obtain rfl := Option.some.inj hj
          omega
        · cases hj
    · rw [List.length_append, List.length_singleton]
      omega
    · rintro (hpos | hne)
      · omega
      · exact (hne rfl).elim
    · rw [List.length_append, List.length_singleton]
      exact ready_goto (fun u => (h.ready u).mono (Nat.le_succ _)) (hq _)
  · have hall : ks.length = o.total := by
      have := h.length_le
      omega
    have hfile : s.globals.currentFile = o.numFiles := by
      rw [h.currentFile, hall, total_div hv]
    rw [advance_of_total hfile]
    split
    · -- the fsync of the next file
      rename_i hcond
      obtain ⟨hend, hwrite, hcount⟩ := hcond
      have hfsyncs : o.fsyncs = o.numFiles := if_pos ⟨hend, operation_eq_write.mp hwrite⟩
      rw [h.fsyncedFile] at hcount
      have hnulls : nulls = [] := by
        by_contra hne
        have := h.stopped hne
        omega
      subst hnulls
      refine ⟨ks, m + 1, [], ?_, h.position, h.currentFile, ?_, h.behind, h.length_le, by omega,
        fun _ => hall, fun hne => (hne rfl).elim, ready_goto h.ready (hq _)⟩
      · change s.handed ++ _ = _
        rw [h.handed, h.fsyncedFile, List.range_succ]
        simp
      · change s.globals.fsyncedFile + 1 = _
        rw [h.fsyncedFile]
    · rename_i hcond
      have hlast : m = o.fsyncs := by
        by_contra hne
        have hlt : m < o.fsyncs := lt_of_le_of_ne h.fsyncs_le hne
        rw [Options.fsyncs] at hlt
        split at hlt
        · rename_i hboth
          rw [h.fsyncedFile] at hcond
          exact hcond ⟨hboth.1, operation_eq_write.mpr hboth.2, hlt⟩
        · cases hlt
      refine ⟨ks, m, nulls ++ [tile o k], ?_, h.position, h.currentFile, h.fsyncedFile, h.behind,
        h.length_le, h.fsyncs_le, fun _ => hall, fun _ => hlast, ready_goto h.ready (hq _)⟩
      change s.handed ++ _ = _
      rw [h.handed]
      simp

theorem Inv.step (hv : o.Valid) (hm : ¬ 0 < o.fileMergedRequests) (h : Inv o s ks m nulls)
    {a : Act T} (hs : step o s a = some s') : ∃ ks' m' nulls', Inv o s' ks' m' nulls' := by
  have hper := hv.perFile.1
  have hblock : o.requestSize = o.fileBlockSize := if_neg hm
  cases a with
  | call u =>
    simp only [SeqRequests.step, if_neg hm] at hs
    split at hs
    · obtain rfl := Option.some.inj hs
      exact ⟨ks, m, nulls, h.goto hblock.symm⟩
    · cases hs
  | execute u =>
    simp only [SeqRequests.step] at hs
    split at hs
    · split at hs
      · cases hs
      · obtain rfl := Option.some.inj hs
        exact ⟨ks, m, nulls, h.goto trivial⟩
    · cases hs
  | run u =>
    have hready := h.ready u
    change SeqRequests.run o s u = some s' at hs
    rw [SeqRequests.run] at hs
    cases hp : s.pc u <;> rw [hp] at hs hready <;> simp only at hs
    case sizeTest | sizeRest => exact hready.elim
    case idle | returned => cases hs
    case fileId size =>
      obtain rfl := Option.some.inj hs
      exact ⟨ks, m, nulls, h.goto ⟨hready, h.currentFile.le⟩⟩
    case pos size id =>
      obtain rfl := Option.some.inj hs
      obtain ⟨hsize, hid⟩ := hready
      have hlt := Nat.mod_lt ks.length hper
      refine ⟨ks, m, nulls, h.goto ⟨o.perFile * id + ks.length % o.perFile, ?_, ?_⟩⟩
      · calc o.perFile * id + ks.length % o.perFile
            ≤ o.perFile * (ks.length / o.perFile) + ks.length % o.perFile :=
              Nat.add_le_add_right (Nat.mul_le_mul_left _ hid) _
          _ = ks.length := Nat.div_add_mod _ _
      · rw [tile, Nat.mul_add_div hper, Nat.div_eq_of_lt hlt, Nat.add_zero, Nat.mul_add_mod,
          Nat.mod_mod, hv.min_eq hm hlt, ← h.position, hsize]
    case advance req =>
      obtain ⟨k, hk, rfl⟩ := hready
      obtain rfl := Option.some.inj hs
      refine h.advance hv hm hk fun p => ?_
      split <;> trivial
    case check r =>
      obtain rfl := Option.some.inj hs
      exact ⟨ks, m, nulls, h.handed, h.position, h.currentFile, h.fsyncedFile, h.behind, h.length_le,
        h.fsyncs_le, h.phase, h.stopped, ready_goto h.ready trivial⟩
    case setPrev r =>
      obtain rfl := Option.some.inj hs
      exact ⟨ks, m, nulls, h.handed, h.position, h.currentFile, h.fsyncedFile, h.behind, h.length_le,
        h.fsyncs_le, h.phase, h.stopped, ready_goto h.ready trivial⟩

end Htmsql.Sysbench.SeqRequests
