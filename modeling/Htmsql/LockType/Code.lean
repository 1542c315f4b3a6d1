import Mathlib.Logic.Function.Basic

/-!
# The spin locks of `LockType`

The functions `*_lock_*` and `*_unlock_*` of `src/hle/lock_functions`, which `LockType::init`
chooses by the type of the lock. A function is written as the list of its atomic steps, with
indices into the list as labels: one step for each builtin, each load, each instruction of the
inline assembly and each branch. The word they share has four bytes, the lowest one first;
`__atomic_test_and_set` and `__atomic_clear` see the lowest byte, the exchanges and the
`__hle_*4` operations all four. An instruction with the prefix XACQUIRE or XRELEASE is what it is
without the prefix.

A function has two locals: `old` is what an exchange or a test-and-set gave back, `val` is what
the waiting loop has loaded. The ghost `acquired` says whether the thread has set the word and has
not reset it; an operation acquires when it gives 0 back.
-/

namespace Htmsql.LockType

/-- `type` of `def.h`. -/
abbrev Word := BitVec 32

/-- The local variables of a lock function. -/
inductive Reg where
  | old
  | val
  deriving DecidableEq, Repr

/-- The instructions that the lock and unlock functions are made of, each atomic as far as memory
goes. -/
inductive Instr where
  /-- `__atomic_exchange_n` and `__hle_acquire_exchange_n4` -/
  | exchangeN (v : Word)
  /-- `lock ; xchg` of `old` and the word -/
  | xchg
  /-- `__atomic_test_and_set` -/
  | testAndSet
  /-- `__hle_acquire_test_and_set4`: `exchange_n4(lock, 1) == 1` -/
  | testAndSet4
  | mov (v : Word)
  /-- `val = *lock` -/
  | load
  | pause
  /-- `__atomic_clear` -/
  | clear
  /-- `__hle_release_clear4`, `mov $0` to the word -/
  | clear4
  | jump (l : Nat)
  /-- to `l` if the local holds `v` -/
  | jumpIf (r : Reg) (v : Word) (l : Nat)
  | ret
  deriving DecidableEq, Repr

/-- A function, as the list of its instructions; jumps name a position in it. -/
abbrev Code := List Instr

/-! ## The functions -/

/-- `while (acquire(lock)) _mm_pause();` -/
def busy (acquire : Instr) : Code :=
  [acquire, .jumpIf .old 0 4, .pause, .jump 0, .ret]

/-- `while (acquire(lock)) do { _mm_pause(); val = *lock; } while (val == 1);` -/
def spec (acquire : Instr) : Code :=
  [acquire, .jumpIf .old 0 6, .pause, .load, .jumpIf .val 1 2, .jump 0, .ret]

def atomicExchLockBusy : Code := busy (.exchangeN 1)
def atomicExchUnlockBusy : Code := [.clear, .ret]

def atomicExchLockSpec : Code := spec (.exchangeN 1)
def atomicExchUnlockSpec : Code := [.clear, .ret]

def atomicExchHleLockBusy : Code := busy (.exchangeN 1)
def atomicExchHleUnlockBusy : Code := [.clear, .ret]

def atomicExchHleLockSpec : Code := spec (.exchangeN 1)
def atomicExchHleUnlockSpec : Code := [.clear, .ret]

def atomicTasLockBusy : Code := busy .testAndSet
def atomicTasUnlockBusy : Code := [.clear, .ret]

def atomicTasLockSpec : Code := spec .testAndSet
def atomicTasUnlockSpec : Code := [.clear, .ret]

def atomicTasHleLockBusy : Code := busy .testAndSet
def atomicTasHleUnlockBusy : Code := [.clear, .ret]

def atomicTasHleLockSpec : Code := spec .testAndSet
def atomicTasHleUnlockSpec : Code := [.clear, .ret]

def hleTasLockBusy : Code := busy .testAndSet4
def hleTasUnlockBusy : Code := [.clear4, .ret]

def hleTasLockSpec : Code := spec .testAndSet4
def hleTasUnlockSpec : Code := [.clear4, .ret]

def hleExchLockBusy : Code := busy (.exchangeN 1)
def hleExchUnlockBusy : Code := [.clear4, .ret]

def hleExchLockSpec : Code := spec (.exchangeN 1)
def hleExchUnlockSpec : Code := [.clear4, .ret]

/-- The word is looked at before the first exchange as well. -/
def hleExchLockSpecChecked : Code :=
  [.pause, .load, .jumpIf .val 1 0,
    .exchangeN 1, .jumpIf .old 0 9, .pause, .load, .jumpIf .val 1 5, .jump 3, .ret]
def hleExchUnlockSpecChecked : Code := [.clear4, .ret]

/-- `old` is the operand of both exchanges, so the second one stores what the first gave back. -/
def hleAsmExchLockBusy : Code :=
  [.mov 1, .xchg, .jumpIf .old 0 6, .pause, .xchg, .jump 2, .ret]
def hleAsmExchUnlockBusy : Code := [.clear4, .ret]

/-- The function returns from inside its outer loop unless the exchange gives 1 back. -/
def hleAsmExchLockSpec : Code :=
  [.mov 1, .xchg, .jumpIf .old 1 4, .ret, .pause, .load, .jumpIf .val 1 4, .jumpIf .old 0 9,
    .jump 1, .ret]
def hleAsmExchUnlockSpec : Code := [.clear4, .ret]

/-- The labels 1, 2 and 3 of the assembly are the indices 0, 3 and 7. -/
def hleAsmExchLockAsmSpec : Code :=
  [.mov 1, .xchg, .jumpIf .old 0 7, .pause, .load, .jumpIf .val 1 3, .jump 0, .ret]
def hleAsmExchUnlockAsmSpec : Code := [.clear4, .ret]

/-! ## `LockType::init` -/

/-- `LockType::EnumType`, without the comments that name types no longer there. -/
inductive EnumType where
  | none | pthread
  | atomicExchBusy | atomicExchSpec | atomicExchHleBusy | atomicExchHleSpec
  | atomicTasBusy | atomicTasSpec | atomicTasHleBusy | atomicTasHleSpec
  | rtm | rtmSmart
  | hleTasBusy | hleTasSpec | hleExchBusy | hleExchSpec | hleExchSpecChecked
  | hleAsmExchBusy | hleAsmExchSpec | hleAsmExchAsmSpec
  deriving DecidableEq, Repr

namespace EnumType

/-- `type_lock_function`, where it is a spin lock. -/
def typeLockFunction : EnumType → Option Code
  | atomicExchBusy => atomicExchLockBusy
  | atomicExchSpec => atomicExchLockSpec
  | atomicTasBusy => atomicTasLockBusy
  | atomicTasSpec => atomicTasLockSpec
  | atomicExchHleBusy => atomicExchHleLockBusy
  | atomicExchHleSpec => atomicExchHleLockSpec
  | atomicTasHleBusy => atomicTasHleLockBusy
  | atomicTasHleSpec => atomicTasHleLockSpec
  | hleTasBusy => hleTasLockBusy
  | hleTasSpec => hleTasLockSpec
  | hleExchBusy => hleExchLockBusy
  | hleExchSpec => hleExchLockSpec
  | hleExchSpecChecked => hleExchLockSpecChecked
  | hleAsmExchBusy => hleAsmExchLockBusy
  | hleAsmExchSpec => hleAsmExchLockSpec
  | hleAsmExchAsmSpec => hleAsmExchLockAsmSpec
  | none | pthread | rtm | rtmSmart => .none

/-- `type_unlock_function`, where it is that of a spin lock. -/
def typeUnlockFunction : EnumType → Option Code
  | atomicExchBusy => atomicExchUnlockBusy
  | atomicExchSpec => atomicExchUnlockSpec
  | atomicTasBusy => atomicTasUnlockBusy
  | atomicTasSpec => atomicTasUnlockSpec
  | atomicExchHleBusy => atomicExchHleUnlockBusy
  | atomicExchHleSpec => atomicExchHleUnlockSpec
  | atomicTasHleBusy => atomicTasHleUnlockBusy
  | atomicTasHleSpec => atomicTasHleUnlockSpec
  | hleTasBusy => hleTasUnlockBusy
  | hleTasSpec => hleTasUnlockSpec
  | hleExchBusy => hleExchUnlockBusy
  | hleExchSpec => hleExchUnlockSpec
  | hleExchSpecChecked => hleExchUnlockSpecChecked
  | hleAsmExchBusy => hleAsmExchUnlockBusy
  | hleAsmExchSpec => hleAsmExchUnlockSpec
  | hleAsmExchAsmSpec => hleAsmExchUnlockAsmSpec
  | none | pthread | rtm | rtmSmart => .none

end EnumType

/-! ## What a step does -/

/-- A thread inside one of the functions. -/
structure Local where
  pc : Nat
  old : Word
  val : Word
  /-- ghost -/
  acquired : Bool
  deriving DecidableEq, Repr

/-- The value of a register. -/
def Local.get (l : Local) : Reg → Word
  | .old => l.old
  | .val => l.val

/-- The function goes on at another position. -/
def Local.goto (l : Local) (pc : Nat) : Local := { l with pc := pc }

/-- An exchange or a test-and-set gives `r` back. -/
def Local.take (l : Local) (r : Word) : Local :=
  { l with pc := l.pc + 1, old := r, acquired := decide (r = 0) }

/-- The word has been reset, and the function goes on at the next position. -/
def Local.release (l : Local) : Local := { l with pc := l.pc + 1, acquired := false }

/-- The byte of the word that an instruction on bytes sees. -/
def lowByte (w : Word) : Word := w &&& 0xff

/-- The word after a byte has been stored in it. -/
def setLowByte (w b : Word) : Word := (w &&& 0xffffff00) ||| b

/-- The value of a C condition. -/
def ofBool (p : Prop) [Decidable p] : Word := if p then 1 else 0

/-- The word and the locals after the step; nothing follows `ret`. -/
def Instr.exec (w : Word) (l : Local) : Instr → Option (Word × Local)
  | exchangeN v => some (v, l.take w)
  | xchg => some (l.old, l.take w)
  | testAndSet => some (setLowByte w 1, l.take (ofBool (lowByte w ≠ 0)))
  | testAndSet4 => some (1, l.take (ofBool (w = 1)))
  | mov v => some (w, { l with pc := l.pc + 1, old := v })
  | load => some (w, { l with pc := l.pc + 1, val := w })
  | pause => some (w, l.goto (l.pc + 1))
  | clear => some (setLowByte w 0, l.release)
  | clear4 => some (0, l.release)
  | jump n => some (w, l.goto n)
  | jumpIf r v n => some (w, l.goto (if l.get r = v then n else l.pc + 1))
  | ret => none

/-- The two outcomes of a step of a function: it returns, or executes an instruction. -/
theorem Code.step_cases {α : Type} {code : Code} {l : Local} {w : Word} {done next : α}
    {cont : Word × Local → α}
    (h : (code[l.pc]?.bind fun i =>
      if i = .ret then some done else (i.exec w l).map cont) = some next) :
    code[l.pc]? = some .ret ∧ next = done ∨
      ∃ i w' l', code[l.pc]? = some i ∧ i.exec w l = some (w', l') ∧ next = cont (w', l') := by
  obtain ⟨i, hi, h⟩ := Option.bind_eq_some_iff.mp h
  split at h
  · rename_i hret
    subst hret
    exact Or.inl ⟨hi, (Option.some.inj h).symm⟩
  · obtain ⟨⟨w', l'⟩, he, rfl⟩ := Option.map_eq_some_iff.mp h
    exact Or.inr ⟨i, w', l', hi, he, rfl⟩

end Htmsql.LockType
