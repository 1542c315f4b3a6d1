import Htmsql.ThreadsafeList.Machine

/-!
# The workload of the list

`TimeCmp::run` and `TimeCmp::run_infinite` of `src/hle/list/TimeCmp.cpp`, and `main` of
`src/hle/list/probabilities.cpp` as far as it fills the list, starts the workers and stops them. All of
them work on one `ThreadsafeList`, each call of which is taken step by step. `RAND` may return anything:
its result comes with the action. A worker gets a copy of its queue.
-/

namespace Htmsql.TimeCmp

open ThreadsafeList (Op)

/-- `main` is `none`. -/
abbrev Client (n : Nat) := Option (Fin n)

/-- The function that a worker runs: so many rounds, or until it is told to stop. -/
inductive Kind where
  | run (repeats : Int)
  | runInfinite
  deriving DecidableEq, Repr

/-- What the command line and the constants give. -/
structure Params (n : Nat) where
  baseInserts : Int
  probabilityInsert : Int
  probabilityRemove : Int
  /-- what each worker runs -/
  kind : Fin n → Kind

/-- The points of `main`: the base values one after the other, then the start of the threads, then
their stop. -/
inductive Main where
  /-- at the head of the loop that inserts the base values -/
  | draw (i : Nat)
  /-- before `list->insert(rnd_val)` -/
  | callInsert (i : Nat) (v : Int)
  | insert (i : Nat) (v : Int)
  /-- before `queues[rotation++ % num_threads].push(rnd_val)` -/
  | push (i : Nat) (v : Int)
  /-- at the head of the loop that starts the workers -/
  | start (i : Nat)
  /-- at the head of the loop that stops them -/
  | stop (i : Nat)
  | join
  | done
  deriving DecidableEq, Repr

/-- The points of a worker in one round of its loop. -/
inductive Pc where
  | notStarted
  /-- at the condition of the loop -/
  | loop
  /-- before `rnd_op = RAND(...)` -/
  | drawOp
  /-- before `rnd_val = RAND(VALUE_RANGE)` -/
  | drawVal (rndOp : Int)
  | choose (rndOp rndVal : Int)
  | callInsert (v : Int)
  | insert (v : Int)
  /-- before `queue.push(rnd_val)` -/
  | push (v : Int)
  /-- before `val = queue.front()` -/
  | front
  /-- before `queue.pop()` -/
  | pop (val : Int)
  | callRemove (val : Int)
  | remove (val : Int)
  | callContains (v : Int)
  | contains (v : Int)
  /-- at the end of the body of the loop -/
  | count
  | done
  deriving DecidableEq, Repr

/-- A worker: its point, its own queue and the rounds it has done. -/
structure Worker where
  pc : Pc
  queue : List Int
  /-- the counter of the loop of `run` -/
  r : Int
  deriving DecidableEq, Repr

/-- The list, `main` and the workers. `queues` are those that `main` fills and each worker copies.
-/
structure Sys (n : Nat) where
  list : ThreadsafeList.Sys (Client n)
  main : Main
  rotation : Nat
  /-- the queues of `main` -/
  queues : Fin n → List Int
  stopFlag : Fin n → Bool
  worker : Fin n → Worker

/-- A step of `main` or of a worker, with the result of `RAND` if it draws. -/
inductive Act (n : Nat) where
  | main (v : Int)
  | worker (t : Fin n) (v : Int)
  deriving DecidableEq, Repr

variable {n : Nat}

def Sys.setList (s : Sys n) (l : ThreadsafeList.Sys (Client n)) : Sys n := { s with list := l }

def Sys.setMain (s : Sys n) (m : Main) : Sys n := { s with main := m }

def Sys.setRotation (s : Sys n) (r : Nat) : Sys n := { s with rotation := r }

/-- One queue of `main` is changed. -/
def Sys.setQueue (s : Sys n) (q : Fin n) (l : List Int) : Sys n :=
  { s with queues := Function.update s.queues q l }

/-- The flag that tells a worker to stop is set. -/
def Sys.setStop (s : Sys n) (t : Fin n) : Sys n :=
  { s with stopFlag := Function.update s.stopFlag t true }

/-- One worker is replaced, everything else stays. -/
def Sys.setWorker (s : Sys n) (t : Fin n) (w : Worker) : Sys n :=
  { s with worker := Function.update s.worker t w }

def Worker.goto (w : Worker) (p : Pc) : Worker := { w with pc := p }

/-- A call of a method of the list. -/
def Sys.call (s : Sys n) (c : Client n) (op : Op) : Option (Sys n) :=
  (ThreadsafeList.step s.list (.call c op)).map s.setList

/-- Within a call: the next step of it, or, when it has returned, `s'`. -/
def Sys.within (s : Sys n) (c : Client n) (s' : Sys n) : Option (Sys n) :=
  if s.list.pc c = .idle then some s' else (ThreadsafeList.step s.list (.run c)).map s.setList

/-- One step of `main`; `v` is the random number where it draws one. -/
def Sys.mainStep (p : Params n) (s : Sys n) (v : Int) : Option (Sys n) :=
  match s.main with
  | .draw i =>
    if (i : Int) < p.baseInserts then some (s.setMain (.callInsert i v))
    else some ((s.setRotation 0).setMain (.start 0))
  | .callInsert i v => (s.setMain (.insert i v)).call none (.insert v)
  | .insert i v => s.within none (s.setMain (.push i v))
  | .push i v =>
    if h : 0 < n then
      let q : Fin n := ⟨s.rotation % n, Nat.mod_lt _ h⟩
      some (((s.setQueue q (s.queues q ++ [v])).setRotation (s.rotation + 1)).setMain
        (.draw (i + 1)))
    else none
  | .start i =>
    if h : i < n then
      let q : Fin n := ⟨s.rotation % n, Nat.mod_lt _ (Nat.zero_lt_of_lt h)⟩
      some (((s.setWorker ⟨i, h⟩ ⟨.loop, s.queues q, 0⟩).setRotation (s.rotation + 1)).setMain
        (.start (i + 1)))
    else some (s.setMain (.stop 0))
  | .stop i =>
    if h : i < n then some ((s.setStop ⟨i, h⟩).setMain (.stop (i + 1)))
    else some (s.setMain .join)
  | .join => if ∀ t, (s.worker t).pc = .done then some (s.setMain .done) else none
  | .done => none

/-- `r < repeats` or `!stop_flag` -/
def Kind.continues (k : Kind) (r : Int) (stopFlag : Bool) : Bool :=
  match k with
  | run repeats => r < repeats
  | runInfinite => !stopFlag

/-- `r++` -/
def Kind.count (k : Kind) (r : Int) : Int :=
  match k with
  | run _ => r + 1
  | runInfinite => r

/-- Which operation the random number stands for. -/
def choice (p : Params n) (rndOp rndVal : Int) (queue : List Int) : Pc :=
  if rndOp < p.probabilityInsert then .callInsert rndVal
  else if rndOp < p.probabilityInsert + p.probabilityRemove ∧ queue ≠ [] then .front
  else .callContains rndVal

/-- One step of a worker; `v` is the random number where it draws one. -/
def Sys.workerStep (p : Params n) (s : Sys n) (t : Fin n) (v : Int) : Option (Sys n) :=
  let w := s.worker t
  match w.pc with
  | .notStarted | .done => none
  | .loop =>
    some (s.setWorker t
      (w.goto (if (p.kind t).continues w.r (s.stopFlag t) then .drawOp else .done)))
  | .drawOp => some (s.setWorker t (w.goto (.drawVal v)))
  | .drawVal rndOp => some (s.setWorker t (w.goto (.choose rndOp v)))
  | .choose rndOp rndVal => some (s.setWorker t (w.goto (choice p rndOp rndVal w.queue)))
  | .callInsert v => (s.setWorker t (w.goto (.insert v))).call (some t) (.insert v)
  | .insert v => s.within (some t) (s.setWorker t (w.goto (.push v)))
  | .push v => some (s.setWorker t { w with pc := .count, queue := w.queue ++ [v] })
  | .front => w.queue.head?.map fun val => s.setWorker t (w.goto (.pop val))
  | .pop val => some (s.setWorker t { w with pc := .callRemove val, queue := w.queue.tail })
  | .callRemove val => (s.setWorker t (w.goto (.remove val))).call (some t) (.remove val)
  | .remove _ => s.within (some t) (s.setWorker t (w.goto .count))
  | .callContains v => (s.setWorker t (w.goto (.contains v))).call (some t) (.contains v)
  | .contains _ => s.within (some t) (s.setWorker t (w.goto .count))
  | .count => some (s.setWorker t { w with pc := .loop, r := (p.kind t).count w.r })

/-- One step of the machine, `none` where that thread cannot go on. -/
def step (p : Params n) (s : Sys n) : Act n → Option (Sys n)
  | .main v => s.mainStep p v
  | .worker t v => s.workerStep p t v

/-- A new list, empty queues, and no worker started. -/
def init : Sys n where
  list := ThreadsafeList.init
  main := .draw 0
  rotation := 0
  queues _ := []
  stopFlag _ := false
  worker _ := ⟨.notStarted, [], 0⟩

end Htmsql.TimeCmp
