import Mathlib.Tactic

/-!
# Non-blocking mode of hooked sockets

An `FdCtx` keeps two views of `O_NONBLOCK`: what the user asked for and what the
system was told.  A hooked socket is non-blocking for the kernel from
`FdCtx::init` on, so that `do_io` can wait for it in a fiber; the hooks of `fcntl`
and `ioctl` are to show the user only the first view.  `fcntl` does; `ioctl` passes
the value on to the kernel.

The kernel is a parameter: `F_SETFL` may refuse an argument, and otherwise sets
`O_NONBLOCK` as the argument has it.
-/

namespace Civan
namespace Hook

section Kernel

/-- `O_NONBLOCK` of x86-64 Linux. -/
def oNonblock : BitVec 32 :=
  0x800#32

/-- The flag is set in a word of flags. -/
def Nonblock (flags : BitVec 32) : Prop :=
  flags &&& oNonblock ≠ 0

instance (flags : BitVec 32) : Decidable (Nonblock flags) :=
  inferInstanceAs (Decidable (_ ≠ _))

/-- `F_SETFL` of the kernel on a socket: the new flags, or `none` when it fails. -/
structure Kernel where
  setfl : (flags arg : BitVec 32) → Option (BitVec 32)
  /-- A successful call sets the flag as the argument has it. -/
  setfl_nonblock : ∀ flags arg flags', setfl flags arg = some flags' →
    (Nonblock flags' ↔ Nonblock arg)
  /-- To add the flag to the flags there are never fails. -/
  setfl_add : ∀ flags, (setfl flags (flags ||| oNonblock)).isSome = true

theorem oNonblock_eq : oNonblock = BitVec.twoPow 32 11 := by
  decide

theorem nonblock_iff (flags : BitVec 32) : Nonblock flags ↔ flags.getLsbD 11 = true := by
  rw [Nonblock, oNonblock_eq, BitVec.and_twoPow]
  split_ifs with hbit
  · exact iff_of_true (by decide) hbit
  · exact iff_of_false (fun hne => hne rfl) hbit

@[simp] theorem nonblock_or (flags : BitVec 32) : Nonblock (flags ||| oNonblock) := by
  rw [nonblock_iff, BitVec.getLsbD_or, oNonblock_eq]
  simp

@[simp] theorem nonblock_and_not (flags : BitVec 32) : ¬ Nonblock (flags &&& ~~~oNonblock) := by
  rw [nonblock_iff, BitVec.getLsbD_and, BitVec.getLsbD_not, oNonblock_eq]
  simp

end Kernel

section Model

/-- `FdCtx` without the time-outs. -/
structure FdCtx where
  isInit : Bool
  isSocket : Bool
  sysNonblock : Bool
  userNonblock : Bool
  isClosed : Bool
deriving DecidableEq, Repr

/-- The kernel's flags of the file, and its `FdCtx` if it has one. -/
structure FdState where
  flags : BitVec 32
  ctx : Option FdCtx
deriving DecidableEq, Repr

/-- `fcntl_f(fd, F_SETFL, arg)`: the result and the flags after it. -/
def fcntlSetfl (k : Kernel) (flags arg : BitVec 32) : BitVec 32 × BitVec 32 :=
  match k.setfl flags arg with
  | some flags' => (0, flags')
  | none => (-1, flags)

/-- `ioctl_f(fd, FIONBIO, &value)`: the flags after it. -/
def ioctlFionbio (flags value : BitVec 32) : BitVec 32 :=
  if value ≠ 0 then flags ||| oNonblock else flags &&& ~~~oNonblock

/-- `FdCtx::init`; `isSock` is what `fstat` says, if it succeeds. -/
def FdCtx.init (k : Kernel) (flags : BitVec 32) (isSock : Option Bool) : FdState :=
  if isSock = some true then
    { flags :=
        if flags &&& oNonblock = 0 then
          (fcntlSetfl k flags (flags ||| oNonblock)).2
        else
          flags
      ctx := some
        { isInit := true
          isSocket := true
          sysNonblock := true
          userNonblock := false
          isClosed := false } }
  else
    { flags := flags
      ctx := some
        { isInit := isSock.isSome
          isSocket := false
          sysNonblock := false
          userNonblock := false
          isClosed := false } }

/-- The `FdCtx`, unless `!ctx || ctx->isClose() || !ctx->isSocket()`. -/
def FdState.hooked (s : FdState) : Option FdCtx :=
  s.ctx.filter (fun ctx => !(ctx.isClosed || !ctx.isSocket))

/-- The calls of the user. -/
inductive Request where
  | setfl (arg : BitVec 32)
  | getfl
  | fionbio (value : BitVec 32)
deriving DecidableEq, Repr

/-- `fcntl(fd, F_SETFL, arg)`: the result and the state after the call. -/
def FdState.setfl (k : Kernel) (s : FdState) (arg : BitVec 32) : BitVec 32 × FdState :=
  match s.hooked with
  | none =>
    let r := fcntlSetfl k s.flags arg
    (r.1, { s with flags := r.2 })
  | some ctx =>
    let arg' := if ctx.sysNonblock then arg ||| oNonblock else arg &&& ~~~oNonblock
    let r := fcntlSetfl k s.flags arg'
    (r.1,
      { flags := r.2
        ctx := some { ctx with userNonblock := decide (arg &&& oNonblock ≠ 0) } })

/-- `fcntl(fd, F_GETFL)`. -/
def FdState.getfl (s : FdState) : BitVec 32 :=
  match s.hooked with
  | none => s.flags
  | some ctx => if ctx.userNonblock then s.flags ||| oNonblock else s.flags &&& ~~~oNonblock

/-- `ioctl(fd, FIONBIO, &value)`: the state after the call, which returns 0. -/
def FdState.fionbio (s : FdState) (value : BitVec 32) : FdState :=
  match s.hooked with
  | none => { s with flags := ioctlFionbio s.flags value }
  | some ctx =>
    { flags := ioctlFionbio s.flags value
      ctx := some { ctx with userNonblock := decide (value ≠ 0) } }

/-- The hooks of `fcntl` and `ioctl`. -/
def FdState.call (k : Kernel) (s : FdState) : Request → BitVec 32 × FdState
  | .setfl arg => s.setfl k arg
  | .getfl => (s.getfl, s)
  | .fionbio value => (0, s.fionbio value)

/-- The state after a list of calls. -/
def FdState.calls (k : Kernel) (s : FdState) (rs : List Request) : FdState :=
  rs.foldl (fun s r => (s.call k r).2) s

end Model

section Mode

/-- What a call asks of `O_NONBLOCK`, if anything. -/
def Request.asks : Request → Option Bool
  | .setfl arg => some (decide (Nonblock arg))
  | .getfl => none
  | .fionbio value => some (decide (value ≠ 0))

/-- What the user asked for last; a new socket is blocking for the user. -/
def lastAsked (rs : List Request) : Bool :=
  (rs.filterMap Request.asks).getLast?.getD false

/-- The kernel does not block, and the user sees what was asked for. -/
structure ModeOk (s : FdState) (asked : Bool) : Prop where
  kernel : Nonblock s.flags
  user : Nonblock s.getfl ↔ asked = true

/-- A hooked socket whose user asked for `asked`. -/
structure HookedSocket (s : FdState) (asked : Bool) : Prop where
  hooked : ∃ ctx, s.ctx = some ctx ∧ ctx.isClosed = false ∧ ctx.isSocket = true ∧
    ctx.sysNonblock = true ∧ ctx.userNonblock = asked

variable {k : Kernel} {s : FdState} {asked : Bool}

theorem init_hookedSocket (k : Kernel) (flags : BitVec 32) :
    HookedSocket (FdCtx.init k flags (some true)) false :=
  ⟨⟨_, rfl, rfl, rfl, rfl, rfl⟩⟩

theorem init_nonblock (k : Kernel) (flags : BitVec 32) :
    Nonblock (FdCtx.init k flags (some true)).flags := by
  simp only [FdCtx.init, if_true]
  split_ifs with hblock
  · obtain ⟨flags', hset⟩ := Option.isSome_iff_exists.mp (k.setfl_add flags)
    rw [fcntlSetfl, hset]
    exact (k.setfl_nonblock _ _ _ hset).mpr (nonblock_or flags)
  · exact hblock

theorem HookedSocket.hooked_eq (h : HookedSocket s asked) :
    ∃ ctx, s.hooked = some ctx ∧ ctx.isClosed = false ∧ ctx.isSocket = true ∧
      ctx.sysNonblock = true ∧ ctx.userNonblock = asked := by
  obtain ⟨ctx, hctx, hclosed, hsocket, hsys, huser⟩ := h.hooked
  refine ⟨ctx, ?_, hclosed, hsocket, hsys, huser⟩
  simp [FdState.hooked, hctx, hclosed, hsocket]

theorem HookedSocket.getfl_iff (h : HookedSocket s asked) :
    Nonblock s.getfl ↔ asked = true := by
  obtain ⟨ctx, hctx, _, _, _, huser⟩ := h.hooked_eq
  rw [FdState.getfl, hctx]
  cases asked <;> simp [huser]

/-- Every call keeps the two views and records what it asks for. -/
theorem HookedSocket.call (h : HookedSocket s asked) (r : Request) :
    HookedSocket (s.call k r).2 (r.asks.getD asked) := by
  obtain ⟨ctx, hctx, hclosed, hsocket, hsys, huser⟩ := h.hooked_eq
  cases r with
  | setfl arg =>
    simp only [FdState.call, FdState.setfl, hctx]
    exact ⟨⟨_, rfl, hclosed, hsocket, hsys, rfl⟩⟩
  | getfl => exact h
  | fionbio value =>
    simp only [FdState.call, FdState.fionbio, hctx]
    exact ⟨⟨_, rfl, hclosed, hsocket, hsys, rfl⟩⟩

/-- The kernel's flag after a call: only `FIONBIO` with 0 clears it. -/
theorem HookedSocket.call_nonblock_iff (h : HookedSocket s asked)
    (hset : Nonblock s.flags) (r : Request) :
    Nonblock (s.call k r).2.flags ↔ r ≠ .fionbio 0 := by
  obtain ⟨ctx, hctx, _, _, hsys, _⟩ := h.hooked_eq
  cases r with
  | setfl arg =>
    refine iff_of_true ?_ (by simp)
    simp only [FdState.call, FdState.setfl, hctx, hsys, if_true]
    -- a call that fails leaves the flags as they are
    unfold fcntlSetfl
    split
    · rename_i flags' hsetfl
      exact (k.setfl_nonblock _ _ _ hsetfl).mpr (nonblock_or arg)
    · exact hset
  | getfl => exact iff_of_true hset (by simp)
  | fionbio value =>
    simp only [FdState.call, FdState.fionbio, hctx, ioctlFionbio]
    split_ifs with hvalue
    · exact iff_of_true (nonblock_or s.flags) (by simpa using hvalue)
    · refine iff_of_false (nonblock_and_not s.flags) ?_
      simpa using hvalue

theorem lastAsked_append_singleton (rs : List Request) (r : Request) :
    lastAsked (rs ++ [r]) = r.asks.getD (lastAsked rs) := by
  unfold lastAsked
  rw [List.filterMap_append]
  cases hasks : r.asks with
  | none => simp [hasks]
  | some b => simp [hasks]

theorem hookedSocket_calls (k : Kernel) (flags : BitVec 32) (rs : List Request) :
    HookedSocket ((FdCtx.init k flags (some true)).calls k rs) (lastAsked rs) := by
  induction rs using List.reverseRecOn with
  | nil => exact init_hookedSocket k flags
  | append_singleton rs r ih =>
    rw [FdState.calls, List.foldl_append, lastAsked_append_singleton]
    exact ih.call r

/-- The kernel's flag is set after each call exactly when none of them was `FIONBIO`
with 0. -/
theorem nonblock_calls_iff (k : Kernel) (flags : BitVec 32) (rs : List Request) :
    (∀ before after, rs = before ++ after →
        Nonblock ((FdCtx.init k flags (some true)).calls k before).flags) ↔
      .fionbio 0 ∉ rs := by
  induction rs using List.reverseRecOn with
  | nil =>
    refine iff_of_true ?_ List.not_mem_nil
    intro before after heq
    obtain ⟨rfl, _⟩ := List.append_eq_nil_iff.mp heq.symm
    exact init_nonblock k flags
  | append_singleton rs r ih =>
    have hlast : (FdCtx.init k flags (some true)).calls k (rs ++ [r]) =
        (((FdCtx.init k flags (some true)).calls k rs).call k r).2 := by
      rw [FdState.calls, List.foldl_append]
      rfl
    rw [List.mem_append, List.mem_singleton, not_or, ← ih]
    constructor
    · intro h
      refine ⟨fun before after heq => h before (after ++ [r]) (by rw [heq, List.append_assoc]), ?_⟩
      have hset := h rs [r] rfl
      have hset' := h (rs ++ [r]) [] (List.append_nil _).symm
      rw [hlast, (hookedSocket_calls k flags rs).call_nonblock_iff hset] at hset'
      exact hset'.symm
    · rintro ⟨h, hr⟩ before after heq
      rcases List.eq_nil_or_concat after with rfl | ⟨after', r', rfl⟩
      · rw [List.append_nil] at heq
        rw [← heq, hlast, (hookedSocket_calls k flags rs).call_nonblock_iff
          (h rs [] (List.append_nil rs).symm)]
        exact fun heq' => hr heq'.symm
      · rw [List.concat_eq_append, ← List.append_assoc] at heq
        exact h before after' (List.append_inj_left' heq rfl)

/--
For every socket with an `FdCtx` and every list of hooked calls: at every moment the
kernel's `O_NONBLOCK` is set and `F_GETFL` returns the flag exactly when the user's last
`F_SETFL` or `FIONBIO` asked for it, if and only if no call was `FIONBIO` with 0.
-/
theorem nonblocking_mode_iff (k : Kernel) (flags : BitVec 32) (rs : List Request) :
    (∀ before after, rs = before ++ after →
        ModeOk ((FdCtx.init k flags (some true)).calls k before) (lastAsked before)) ↔
      .fionbio 0 ∉ rs := by
  rw [← nonblock_calls_iff k flags rs]
  constructor
  · intro h before after heq
    exact (h before after heq).kernel
  · intro h before after heq
    exact ⟨h before after heq, (hookedSocket_calls k flags before).getfl_iff⟩

/-- `F_SETFL` on a Linux socket: it refuses to add `O_DIRECT` (0x4000), and changes
`O_APPEND`, `O_NONBLOCK`, `O_ASYNC`, `O_DIRECT` and `O_NOATIME` only. -/
def linuxSocket : Kernel where
  setfl flags arg :=
    if arg &&& ~~~flags &&& 0x4000#32 ≠ 0 then
      none
    else
      some ((arg &&& 0x46c00#32) ||| (flags &&& ~~~0x46c00#32))
  setfl_nonblock := by
    intro flags arg flags' hset
    split_ifs at hset
    simp only [Option.some.injEq] at hset
    rw [← hset, nonblock_iff, nonblock_iff]
    simp
  setfl_add := by
    intro flags
    have hzero : (flags ||| oNonblock) &&& ~~~flags &&& 0x4000#32 = 0 := by
      rw [oNonblock]
      ext i hi
      interval_cases i <;> simp
    simp [hzero]

/-- `ioctl(FIONBIO)` with 0 makes a socket blocking that the user sees as blocking. -/
theorem fionbio_zero_blocks :
    ¬ ∀ before after, [Request.fionbio 0] = before ++ after →
      ModeOk ((FdCtx.init linuxSocket 2 (some true)).calls linuxSocket before)
        (lastAsked before) := by
  intro h
  have hkernel := (h [.fionbio 0] [] rfl).kernel
  revert hkernel
  decide

end Mode

end Hook
end Civan
