import CseLabs.PollMgr

namespace CseLabs.PollMgr

inductive Op
  | watch (fd : Nat) (flag : Flag)
  | unwatch (fd : Nat) (flag : Flag)
  deriving DecidableEq

def Op.fd : Op → Nat
  | .watch fd _ | .unwatch fd _ => fd

def Op.flag : Op → Flag
  | .watch _ flag | .unwatch _ flag => flag

-- A manager's answers to a sequence of calls.
def serve {σ : Type*} (act : σ → Op → Option (Option Bool × σ)) : σ → List Op → Option (List (Option Bool) × σ)
  | state, [] => some ([], state)
  | state, op :: rest =>
      (act state op).bind fun r => (serve act r.2 rest).map (Prod.map (r.1 :: ·) id)

def SelectAio.act (s : SelectAio) : Op → Option (Option Bool × SelectAio)
  | .watch fd flag => (s.watchFd fd flag).map fun s => (none, s)
  | .unwatch fd flag => (s.unwatchFd fd flag).map (Prod.map some id)

def EPollAio.act (pollable : Nat → Bool) (e : EPollAio) : Op → Option (Option Bool × EPollAio)
  | .watch fd flag => (e.watchFd pollable fd flag).map fun e => (none, e)
  | .unwatch fd flag => (e.unwatchFd pollable fd flag).map (Prod.map some id)

-- What an aio_mgr is for: it keeps, for each descriptor, whether it is watched for reading and for writing.
abbrev Interest := Nat → Bool × Bool

namespace Flag

def reads : Flag → Bool
  | rdonly | rdwr => true
  | none | wronly => false

def writes : Flag → Bool
  | wronly | rdwr => true
  | none | rdonly => false

end Flag

namespace Interest

def watch (a : Interest) (fd : Nat) (flag : Flag) : Interest :=
  Function.update a fd ((a fd).1 || flag.reads, (a fd).2 || flag.writes)

def unwatch (a : Interest) (fd : Nat) (flag : Flag) : Interest :=
  Function.update a fd ((a fd).1 && !flag.reads, (a fd).2 && !flag.writes)

def act (a : Interest) : Op → Option Bool × Interest
  | .watch fd flag => (none, a.watch fd flag)
  | .unwatch fd flag => (some (a.unwatch fd flag fd == (false, false)), a.unwatch fd flag)

def empty : Interest := fun _ => (false, false)

def serve (a : Interest) : List Op → List (Option Bool) × Interest
  | [] => ([], a)
  | op :: rest => Prod.map ((a.act op).1 :: ·) id ((a.act op).2.serve rest)

-- is_watched
def watches (a : Interest) (fd : Nat) (flag : Flag) : Bool :=
  (!flag.reads || (a fd).1) && (!flag.writes || (a fd).2)

-- A descriptor is given up only while it is watched.
def Gives (a : Interest) : Op → Prop
  | .watch _ _ => True
  | .unwatch fd _ => a fd ≠ (false, false)

instance (a : Interest) : (op : Op) → Decidable (a.Gives op)
  | .watch _ _ => inferInstanceAs (Decidable True)
  | .unwatch fd _ => inferInstanceAs (Decidable (a fd ≠ (false, false)))

-- What EPollAIO asks of a call.
def Allows (pollable : Nat → Bool) (a : Interest) (op : Op) : Prop :=
  op.fd < MAX_POLL_FDS ∧ pollable op.fd = true ∧ a.Gives op

def Admits (pollable : Nat → Bool) (a : Interest) : List Op → Prop
  | [] => True
  | op :: rest => a.Allows pollable op ∧ Admits pollable (a.act op).2 rest

end Interest

section Select

-- The highest of the descriptors below a bound with a property, as the loop of unwatch_fd finds it.
theorem foldl_last (p : Nat → Bool) (first bound : Nat) :
    let last := (List.range bound).foldl (fun newh i => if p i then i else newh) first
    (∀ i, i < bound → p i = true → i ≤ last) ∧ (last = first ∨ p last = true) := by
  induction bound with
  | zero => exact ⟨fun i hi => absurd hi (Nat.not_lt_zero i), .inl rfl⟩
  | succ bound ih =>
      obtain ⟨hmax, hlast⟩ := ih
      simp only [List.range_succ, List.foldl_append, List.foldl_cons, List.foldl_nil]
      split
      · exact ⟨fun i hi _ => Nat.lt_succ_iff.mp hi, .inr ‹_›⟩
      · refine ⟨fun i hi hpi => ?_, hlast⟩
        rcases Nat.lt_succ_iff_lt_or_eq.mp hi with hlt | rfl
        · exact hmax i hlt hpi
        · exact absurd hpi ‹_›

def SelectAio.watched (s : SelectAio) (fd : Nat) : Bool := s.rfds fd || s.wfds fd

theorem newHigh_eq (s : SelectAio) :
    SelectAio.newHigh s.rfds s.wfds s.pipefd s.highfds =
      (List.range (s.highfds + 1)).foldl (fun newh i => if s.watched i then i else newh) s.pipefd := by
  unfold SelectAio.newHigh
  congr 1
  funext newh i
  cases hr : s.rfds i <;> cases hw : s.wfds i <;> simp [SelectAio.watched, hr, hw]

theorem dropped_eq (s : SelectAio) (fd : Nat) : s.dropped fd = !s.watched fd := by
  simp [SelectAio.dropped, SelectAio.watched]

-- The pipe is watched, and highfds_ is the highest descriptor that is watched.
structure SelectAio.Sound (s : SelectAio) : Prop where
  piped : s.rfds s.pipefd = true
  bound : ∀ fd, s.watched fd = true → fd ≤ s.highfds
  tight : s.watched s.highfds = true

theorem create_sound (pipefd : Nat) : (SelectAio.create pipefd).Sound := by
  refine ⟨by simp [SelectAio.create], fun fd hfd => ?_, by simp [SelectAio.create, SelectAio.watched]⟩
  by_contra hle
  have hne : fd ≠ pipefd := fun heq => hle heq.le
  simp [SelectAio.create, SelectAio.watched, Function.update_of_ne hne] at hfd

variable {s next : SelectAio} {fd : Nat} {flag : Flag}

theorem watch_watched (s : SelectAio) (fd : Nat) (flag : Flag) :
    (s.watch fd flag).watched = Function.update s.watched fd true := by
  funext other
  by_cases heq : other = fd
  · subst heq
    cases flag <;> simp [SelectAio.watch, SelectAio.watched]
  · cases flag <;> simp [SelectAio.watch, SelectAio.watched, Function.update_of_ne heq]

theorem watch_highfds (s : SelectAio) (fd : Nat) (flag : Flag) :
    (s.watch fd flag).highfds = max s.highfds fd := by
  simp only [SelectAio.watch]
  split <;> omega

theorem SelectAio.Sound.watch (h : s.Sound) (fd : Nat) (flag : Flag) : (s.watch fd flag).Sound := by
  have hhigh := watch_highfds s fd flag
  refine ⟨?_, fun other hother => ?_, ?_⟩
  · have hpiped := h.piped
    cases flag <;> simp only [SelectAio.watch, reduceCtorEq, if_true, if_false]
    case wronly => exact hpiped
    all_goals
      by_cases heq : s.pipefd = fd
      · rw [heq, Function.update_self]
      · rw [Function.update_of_ne heq]
        exact hpiped
  · rw [watch_watched] at hother
    rw [hhigh]
    by_cases heq : other = fd
    · exact heq.le.trans (le_max_right _ _)
    · rw [Function.update_of_ne heq] at hother
      exact (h.bound other hother).trans (le_max_left _ _)
  · rw [watch_watched, hhigh]
    by_cases heq : max s.highfds fd = fd
    · rw [heq, Function.update_self]
    · have hmax : max s.highfds fd = s.highfds := by omega
      rw [hmax] at heq ⊢
      rw [Function.update_of_ne heq]
      exact h.tight

-- One descriptor other than the pipe has been cleared, wholly or in part.
theorem SelectAio.Sound.lower {left : Bool} (h : s.Sound) (hnext : next.watched = Function.update s.watched fd left)
    (hleft : left = true → s.watched fd = true) (hhigh : next.highfds = s.highfds)
    (hpiped : next.rfds next.pipefd = true) : (next.lower fd).Sound := by
  have hbound : ∀ other, next.watched other = true → other ≤ next.highfds := by
    intro other hother
    rw [hhigh]
    rw [hnext] at hother
    by_cases heq : other = fd
    · subst heq
      rw [Function.update_self] at hother
      exact h.bound other (hleft hother)
    · rw [Function.update_of_ne heq] at hother
      exact h.bound other hother
  unfold SelectAio.lower
  split
  · have hlast := foldl_last next.watched next.pipefd (next.highfds + 1)
    rw [← newHigh_eq] at hlast
    refine ⟨hpiped, fun other hother => ?_, ?_⟩
    · exact hlast.1 other (Nat.lt_succ_of_le (hbound other hother)) hother
    · rcases hlast.2 with heq | hset
      · change next.watched (SelectAio.newHigh next.rfds next.wfds next.pipefd next.highfds) = true
        rw [heq, SelectAio.watched, hpiped, Bool.true_or]
      · exact hset
  · rename_i hkept
    refine ⟨hpiped, hbound, ?_⟩
    rw [dropped_eq, Bool.not_eq_true', not_and'] at hkept
    by_cases heq : fd = next.highfds
    · rw [← heq]
      simpa using hkept heq
    · rw [hnext, hhigh] at *
      rw [Function.update_of_ne (Ne.symm heq)]
      exact h.tight

theorem lower_sets (s : SelectAio) (fd : Nat) :
    (s.lower fd).rfds = s.rfds ∧ (s.lower fd).wfds = s.wfds ∧ (s.lower fd).pipefd = s.pipefd := by
  unfold SelectAio.lower
  split <;> exact ⟨rfl, rfl, rfl⟩

def SelectAio.interest (s : SelectAio) : Interest := fun fd => (s.rfds fd, s.wfds fd)

theorem watch_interest (s : SelectAio) (fd : Nat) (hflag : flag ≠ .none) :
    (s.watch fd flag).interest = s.interest.watch fd flag := by
  funext other
  by_cases heq : other = fd
  · subst heq
    cases flag <;> simp_all [SelectAio.watch, SelectAio.interest, Interest.watch, Flag.reads, Flag.writes]
  · cases flag <;> simp [SelectAio.watch, SelectAio.interest, Interest.watch, Function.update_of_ne heq]

-- The sets without the descriptor, for the kinds of event of the flag.
def SelectAio.clear (s : SelectAio) (fd : Nat) (flag : Flag) : SelectAio :=
  { s with rfds := if flag.reads then Function.update s.rfds fd false else s.rfds
           wfds := if flag.writes then Function.update s.wfds fd false else s.wfds }

theorem unwatchFd_eq (s : SelectAio) (hfd : fd < FD_SETSIZE) (hflag : flag ≠ .none) :
    s.unwatchFd fd flag = some (((s.clear fd flag).lower fd).dropped fd,
      { (s.clear fd flag).lower fd with
        pipe := ((s.clear fd flag).lower fd).pipe + if flag = .rdwr then 1 else 0 }) := by
  rw [SelectAio.unwatchFd, if_pos hfd]
  cases flag with
  | none => exact absurd rfl hflag
  | rdonly => rfl
  | wronly => rfl
  | rdwr => rfl

theorem clear_interest (s : SelectAio) (fd : Nat) (flag : Flag) :
    (s.clear fd flag).interest = s.interest.unwatch fd flag := by
  funext other
  by_cases heq : other = fd
  · subst heq
    cases flag <;> simp [SelectAio.clear, SelectAio.interest, Interest.unwatch, Flag.reads, Flag.writes]
  · cases flag <;>
      simp [SelectAio.clear, SelectAio.interest, Interest.unwatch, Flag.reads, Flag.writes, Function.update_of_ne heq]

theorem dropped_interest (s : SelectAio) (fd : Nat) : s.dropped fd = (s.interest fd == (false, false)) := by
  cases hr : s.rfds fd <;> cases hw : s.wfds fd <;> simp [SelectAio.dropped, SelectAio.interest, hr, hw]

theorem watched_eq (s : SelectAio) (fd : Nat) : s.watched fd = ((s.interest fd).1 || (s.interest fd).2) := rfl

-- What a call of unwatch_fd that does not fail has been given.
theorem unwatchFd_some {dropped : Bool} (h : s.unwatchFd fd flag = some (dropped, next)) :
    fd < FD_SETSIZE ∧ flag ≠ .none := by
  unfold SelectAio.unwatchFd at h
  split at h
  · refine ⟨‹_›, ?_⟩
    rintro rfl
    cases h
  · cases h

theorem SelectAio.Sound.unwatchFd (h : s.Sound) (hsize : fd < FD_SETSIZE) (hfd : fd ≠ s.pipefd)
    (hflag : flag ≠ .none) :
    ∃ next, s.unwatchFd fd flag = some (next.interest fd == (false, false), next) ∧ next.Sound ∧
      next.pipefd = s.pipefd ∧ next.interest = s.interest.unwatch fd flag := by
  obtain ⟨hr, hw, hp⟩ := lower_sets (s.clear fd flag) fd
  have hinterest : ((s.clear fd flag).lower fd).interest = s.interest.unwatch fd flag := by
    rw [← clear_interest]
    funext other
    simp only [SelectAio.interest, hr, hw]
  have hwatched : (s.clear fd flag).watched =
      Function.update s.watched fd ((s.clear fd flag).watched fd) := by
    funext other
    by_cases heq : other = fd
    · rw [heq, Function.update_self]
    · rw [Function.update_of_ne heq, watched_eq, clear_interest, Interest.unwatch, Function.update_of_ne heq]
      rfl
  have hsound := h.lower hwatched (by
      rw [watched_eq, clear_interest, Interest.unwatch, Function.update_self, watched_eq]
      cases (s.interest fd).1 <;> cases (s.interest fd).2 <;> simp) rfl (by
      have hpiped := h.piped
      simp only [SelectAio.clear]
      split
      · rw [Function.update_of_ne (Ne.symm hfd)]
        exact hpiped
      · exact hpiped)
  refine ⟨{ (s.clear fd flag).lower fd with
    pipe := ((s.clear fd flag).lower fd).pipe + if flag = .rdwr then 1 else 0 }, ?_,
    ⟨hsound.piped, hsound.bound, hsound.tight⟩, hp, hinterest⟩
  rw [unwatchFd_eq s hsize hflag, dropped_interest]
  rfl

-- Giving up a descriptor does not raise highfds_.
theorem SelectAio.Sound.high (h : s.Sound) (hnext : next.Sound)
    (hinterest : next.interest = s.interest.unwatch fd flag) : next.highfds ≤ s.highfds := by
  refine h.bound _ ?_
  have htight := hnext.tight
  rw [watched_eq, hinterest, Interest.unwatch] at htight
  rw [watched_eq]
  by_cases heq : next.highfds = fd
  · rw [heq, Function.update_self] at htight
    rw [heq]
    cases hr : (s.interest fd).1 <;> cases hw : (s.interest fd).2 <;> simp_all
  · rwa [Function.update_of_ne heq] at htight

-- The sets are those of the abstract manager, with the pipe.
structure SelectAio.Mirrors (s : SelectAio) (a : Interest) : Prop where
  sound : s.Sound
  -- select is called on no more descriptors than the sets hold
  inside : s.highfds < FD_SETSIZE
  same : s.interest = Function.update a s.pipefd (true, false)

variable {a : Interest} {op : Op}

theorem SelectAio.Mirrors.interest (h : s.Mirrors a) (hfd : fd ≠ s.pipefd) : s.interest fd = a fd := by
  rw [h.same, Function.update_of_ne hfd]

theorem SelectAio.Mirrors.act (h : s.Mirrors a) (hsize : op.fd < FD_SETSIZE) (hfd : op.fd ≠ s.pipefd)
    (hflag : op.flag ≠ .none) :
    ∃ next, s.act op = some ((a.act op).1, next) ∧ next.Mirrors (a.act op).2 ∧ next.pipefd = s.pipefd := by
  cases op with
  | watch fd flag =>
      simp only [Op.fd, Op.flag] at hsize hfd hflag
      have hwatch : s.watchFd fd flag = some (s.watch fd flag) := if_pos hsize
      refine ⟨s.watch fd flag, ?_, ⟨h.sound.watch fd flag, ?_, ?_⟩, rfl⟩
      · exact congrArg (Option.map fun s => (none, s)) hwatch
      · rw [watch_highfds]
        exact max_lt h.inside hsize
      rw [watch_interest s fd hflag]
      change Interest.watch s.interest fd flag = Function.update (a.watch fd flag) s.pipefd _
      rw [Interest.watch, h.interest hfd, h.same, Interest.watch, Function.update_comm (Ne.symm hfd)]
  | unwatch fd flag =>
      simp only [Op.fd, Op.flag] at hsize hfd hflag
      obtain ⟨next, hnext, hsound, hpipe, hinterest⟩ := h.sound.unwatchFd hsize hfd hflag
      have hat : next.interest fd = a.unwatch fd flag fd := by
        rw [hinterest, Interest.unwatch, Function.update_self, h.interest hfd, Interest.unwatch, Function.update_self]
      refine ⟨next, ?_, ⟨hsound, (h.sound.high hsound hinterest).trans_lt h.inside, ?_⟩, hpipe⟩
      · simp only [SelectAio.act, hnext, hat, Option.map_some]
        rfl
      · change next.interest = Function.update (a.unwatch fd flag) next.pipefd _
        rw [hinterest, hpipe, Interest.unwatch, h.interest hfd, h.same, Interest.unwatch,
          Function.update_comm (Ne.symm hfd)]

theorem SelectAio.Mirrors.serve (h : s.Mirrors a) {ops : List Op}
    (hops : ∀ op ∈ ops, op.fd < FD_SETSIZE ∧ op.fd ≠ s.pipefd ∧ op.flag ≠ .none) :
    ∃ last, PollMgr.serve SelectAio.act s ops = some ((a.serve ops).1, last) ∧ last.Mirrors (a.serve ops).2 ∧
      last.pipefd = s.pipefd := by
  induction ops generalizing s a with
  | nil => exact ⟨s, rfl, h, rfl⟩
  | cons op rest ih =>
      obtain ⟨hsize, hfd, hflag⟩ := hops op List.mem_cons_self
      obtain ⟨next, hact, hnext, hpipe⟩ := h.act hsize hfd hflag
      obtain ⟨last, hserve, hlast, hsame⟩ := ih hnext fun other hother => by
        rw [hpipe]
        exact hops other (List.mem_cons_of_mem _ hother)
      refine ⟨last, ?_, hlast, hsame.trans hpipe⟩
      simp only [PollMgr.serve, hact, Option.bind_some, hserve, Option.map_some]
      rfl

theorem SelectAio.Mirrors.isWatched (h : s.Mirrors a) (hsize : fd < FD_SETSIZE) (hfd : fd ≠ s.pipefd)
    (hflag : flag ≠ .none) : s.isWatched fd flag = some (a.watches fd flag) := by
  have hsame := h.interest hfd
  rw [Interest.watches, ← hsame]
  cases flag with
  | none => exact absurd rfl hflag
  | rdonly => simp [SelectAio.isWatched, hsize, SelectAio.interest, Flag.reads, Flag.writes]
  | wronly => simp [SelectAio.isWatched, hsize, SelectAio.interest, Flag.reads, Flag.writes]
  | rdwr => simp [SelectAio.isWatched, hsize, SelectAio.interest, Flag.reads, Flag.writes]

end Select

section EPoll

variable {pollable : Nat → Bool} {e : EPollAio} {a : Interest} {fd : Nat} {flag : Flag}

-- The bits of fdstatus_.
def status (kinds : Bool × Bool) : BitVec 32 :=
  (if kinds.1 then Flag.rdonly.bits else 0) ||| if kinds.2 then Flag.wronly.bits else 0

structure EPollAio.Mirrors (e : EPollAio) (a : Interest) : Prop where
  bits : ∀ fd, e.fdstatus fd = status (a fd)
  registered : ∀ fd, e.interest fd = if a fd = (false, false) then none else some (a fd)

theorem events_status (kinds : Bool × Bool) : EPollAio.events (status kinds) = kinds := by
  obtain ⟨r, w⟩ := kinds
  cases r <;> cases w <;> decide

theorem status_eq_zero (kinds : Bool × Bool) : status kinds = 0 ↔ kinds = (false, false) := by
  obtain ⟨r, w⟩ := kinds
  cases r <;> cases w <;> decide

theorem status_watch (kinds : Bool × Bool) (flag : Flag) :
    status kinds ||| flag.bits = status (kinds.1 || flag.reads, kinds.2 || flag.writes) := by
  obtain ⟨r, w⟩ := kinds
  cases r <;> cases w <;> cases flag <;> decide

theorem status_unwatch (kinds : Bool × Bool) (flag : Flag) :
    status kinds &&& ~~~flag.bits = status (kinds.1 && !flag.reads, kinds.2 && !flag.writes) := by
  obtain ⟨r, w⟩ := kinds
  cases r <;> cases w <;> cases flag <;> decide

theorem status_masked (kinds : Bool × Bool) : status kinds &&& CB_MASK = 0 := by
  obtain ⟨r, w⟩ := kinds
  cases r <;> cases w <;> decide

theorem EPollAio.Mirrors.update (h : e.Mirrors a) (fd : Nat) (kinds : Bool × Bool) :
    EPollAio.Mirrors { fdstatus := Function.update e.fdstatus fd (status kinds)
                       interest := Function.update e.interest fd
                         (if kinds = (false, false) then none else some kinds) }
      (Function.update a fd kinds) := by
  constructor
  · intro other
    by_cases heq : other = fd
    · subst heq
      simp only [Function.update_self]
    · simp only [Function.update_of_ne heq]
      exact h.bits other
  · intro other
    by_cases heq : other = fd
    · subst heq
      simp only [Function.update_self]
    · simp only [Function.update_of_ne heq]
      exact h.registered other

theorem EPollAio.Mirrors.watchFd (h : e.Mirrors a) (hfd : fd < MAX_POLL_FDS) (hopen : pollable fd = true)
    (hflag : flag ≠ .none) :
    ∃ next, e.watchFd pollable fd flag = some next ∧ next.Mirrors (a.watch fd flag) := by
  have hkinds : ((a fd).1 || flag.reads, (a fd).2 || flag.writes) ≠ (false, false) := by
    cases flag <;> simp_all [Flag.reads, Flag.writes]
  have hboth : flag = .rdwr → ((a fd).1 || flag.reads, (a fd).2 || flag.writes) = (true, true) := by
    rintro rfl
    simp [Flag.reads, Flag.writes]
  refine ⟨_, ?_, h.update fd ((a fd).1 || flag.reads, (a fd).2 || flag.writes)⟩
  simp only [EPollAio.watchFd, h.bits fd, status_watch, events_status]
  rw [if_pos ⟨hfd, hboth⟩, if_neg hkinds]
  have hreg := h.registered fd
  by_cases hzero : a fd = (false, false)
  · rw [if_pos hzero] at hreg
    have hop : ¬ status (a fd) ≠ 0 := not_not.mpr ((status_eq_zero _).mpr hzero)
    simp only [if_neg hop, EPollAio.epollCtl, if_pos hopen, hreg, Option.map_some]
  · rw [if_neg hzero] at hreg
    have hop : status (a fd) ≠ 0 := fun hs => hzero ((status_eq_zero _).mp hs)
    simp only [if_pos hop, EPollAio.epollCtl, if_pos hopen, hreg, Option.map_some]

theorem EPollAio.Mirrors.unwatchFd (h : e.Mirrors a) (flag : Flag) (hfd : fd < MAX_POLL_FDS)
    (hopen : pollable fd = true) (hwatched : a fd ≠ (false, false)) :
    ∃ next, e.unwatchFd pollable fd flag = some (a.unwatch fd flag fd == (false, false), next) ∧
      next.Mirrors (a.unwatch fd flag) := by
  have hreg := h.registered fd
  rw [if_neg hwatched] at hreg
  have hnone : flag = .rdwr → ((a fd).1 && !flag.reads, (a fd).2 && !flag.writes) = (false, false) := by
    rintro rfl
    simp [Flag.reads, Flag.writes]
  refine ⟨_, ?_, h.update fd ((a fd).1 && !flag.reads, (a fd).2 && !flag.writes)⟩
  simp only [EPollAio.unwatchFd, h.bits fd, status_unwatch, events_status, Interest.unwatch, Function.update_self]
  by_cases hzero : ((a fd).1 && !flag.reads, (a fd).2 && !flag.writes) = (false, false)
  · have hop : ¬ status ((a fd).1 && !flag.reads, (a fd).2 && !flag.writes) ≠ 0 :=
      not_not.mpr ((status_eq_zero _).mpr hzero)
    rw [if_neg hop, if_pos ⟨hfd, fun _ => rfl⟩, if_pos hzero, hzero]
    simp only [EPollAio.epollCtl, if_pos hopen, hreg, Option.map_some]
    rfl
  · have hop : status ((a fd).1 && !flag.reads, (a fd).2 && !flag.writes) ≠ 0 :=
      fun hs => hzero ((status_eq_zero _).mp hs)
    rw [if_pos hop, if_pos ⟨hfd, fun hflag => absurd (hnone hflag) hzero⟩, if_neg hzero, beq_false_of_ne hzero]
    simp only [EPollAio.epollCtl, if_pos hopen, hreg, Option.map_some]
    rfl

-- Neither EPOLL_CTL_MOD nor EPOLL_CTL_DEL finds the descriptor.
theorem EPollAio.Mirrors.unwatchFd_none (h : e.Mirrors a) (hfree : a fd = (false, false)) :
    e.unwatchFd pollable fd flag = none := by
  have hreg := h.registered fd
  rw [if_pos hfree] at hreg
  have hctl : ∀ op kinds, op ≠ EPollAio.Ctl.add → EPollAio.epollCtl pollable e.interest op fd kinds = none := by
    intro op kinds hop
    cases op with
    | add => exact absurd rfl hop
    | mod => simp only [EPollAio.epollCtl, hreg, ite_self]
    | del => simp only [EPollAio.epollCtl, hreg, ite_self]
  have hop : (if e.fdstatus fd &&& ~~~flag.bits ≠ 0 then EPollAio.Ctl.mod else .del) ≠ .add := by
    split <;> simp
  simp only [EPollAio.unwatchFd]
  rw [hctl _ _ hop]
  simp

theorem EPollAio.Mirrors.isWatched (h : e.Mirrors a) (hfd : fd < MAX_POLL_FDS) (hflag : flag ≠ .none) :
    e.isWatched fd flag = some false := by
  rw [EPollAio.isWatched, if_pos hfd, h.bits, status_masked]
  cases flag with
  | none => exact absurd rfl hflag
  | rdonly => decide
  | wronly => decide
  | rdwr => decide

-- The two tests before epoll_ctl looks at its own table.
theorem act_outside (e : EPollAio) {op : Op} (h : ¬ (op.fd < MAX_POLL_FDS ∧ pollable op.fd = true)) :
    e.act pollable op = none := by
  by_cases hfd : op.fd < MAX_POLL_FDS
  · have hopen : ¬ pollable op.fd = true := fun hopen => h ⟨hfd, hopen⟩
    cases op with
    | watch fd flag =>
        simp [EPollAio.act, EPollAio.watchFd, EPollAio.epollCtl, if_neg (show ¬ pollable fd = true from hopen)]
    | unwatch fd flag =>
        simp [EPollAio.act, EPollAio.unwatchFd, EPollAio.epollCtl, if_neg (show ¬ pollable fd = true from hopen)]
  · cases op with
    | watch fd flag => simp [EPollAio.act, EPollAio.watchFd, show ¬ fd < MAX_POLL_FDS from hfd]
    | unwatch fd flag => simp [EPollAio.act, EPollAio.unwatchFd, show ¬ fd < MAX_POLL_FDS from hfd]

theorem EPollAio.Mirrors.act {op : Op} (h : e.Mirrors a) (hflag : op.flag ≠ .none) :
    (a.Allows pollable op → ∃ next, e.act pollable op = some ((a.act op).1, next) ∧ next.Mirrors (a.act op).2) ∧
      (¬ a.Allows pollable op → e.act pollable op = none) := by
  by_cases hinside : op.fd < MAX_POLL_FDS ∧ pollable op.fd = true
  · obtain ⟨hfd, hopen⟩ := hinside
    cases op with
    | watch fd flag =>
        refine ⟨fun _ => ?_, fun hnot => absurd ⟨hfd, hopen, trivial⟩ hnot⟩
        obtain ⟨next, hnext, hmirrors⟩ := h.watchFd hfd hopen hflag
        exact ⟨next, congrArg (Option.map fun e => (none, e)) hnext, hmirrors⟩
    | unwatch fd flag =>
        refine ⟨fun hallows => ?_, fun hnot => ?_⟩
        · obtain ⟨next, hnext, hmirrors⟩ := h.unwatchFd flag hfd hopen hallows.2.2
          exact ⟨next, congrArg (Option.map (Prod.map some id)) hnext, hmirrors⟩
        · have hfree : a fd = (false, false) := by
            by_contra hwatched
            exact hnot ⟨hfd, hopen, hwatched⟩
          exact congrArg (Option.map (Prod.map some id)) (h.unwatchFd_none hfree)
  · exact ⟨fun hallows => absurd ⟨hallows.1, hallows.2.1⟩ hinside, fun _ => act_outside e hinside⟩

theorem EPollAio.Mirrors.serve (h : e.Mirrors a) {ops : List Op} (hops : ∀ op ∈ ops, op.flag ≠ .none) :
    (a.Admits pollable ops → ∃ last, PollMgr.serve (EPollAio.act pollable) e ops = some ((a.serve ops).1, last) ∧
        last.Mirrors (a.serve ops).2) ∧
      (¬ a.Admits pollable ops → PollMgr.serve (EPollAio.act pollable) e ops = none) := by
  induction ops generalizing e a with
  | nil => exact ⟨fun _ => ⟨e, rfl, h⟩, fun hnot => absurd trivial hnot⟩
  | cons op rest ih =>
      obtain ⟨hdone, hrefused⟩ := h.act (hops op List.mem_cons_self)
      by_cases hallows : a.Allows pollable op
      · obtain ⟨next, hact, hmirrors⟩ := hdone hallows
        obtain ⟨hyes, hno⟩ := ih hmirrors fun other hother => hops other (List.mem_cons_of_mem _ hother)
        refine ⟨fun hadmits => ?_, fun hnot => ?_⟩
        · obtain ⟨last, hserve, hlast⟩ := hyes hadmits.2
          refine ⟨last, ?_, hlast⟩
          simp only [PollMgr.serve, hact, Option.bind_some, hserve, Option.map_some]
          rfl
        · have hrest : ¬ Interest.Admits pollable (a.act op).2 rest := fun hadmits => hnot ⟨hallows, hadmits⟩
          simp only [PollMgr.serve, hact, Option.bind_some, hno hrest, Option.map_none]
      · refine ⟨fun hadmits => absurd hadmits.1 hallows, fun _ => ?_⟩
        simp only [PollMgr.serve, hrefused hallows, Option.bind_none]

theorem create_mirrors_empty : EPollAio.create.Mirrors .empty := by
  refine ⟨fun fd => ?_, fun fd => ?_⟩
  · simp [EPollAio.create, status, Interest.empty]
  · simp [EPollAio.create, Interest.empty]

-- EPollAIO aborts exactly on a descriptor of MAX_POLL_FDS or more, on one that is not open or cannot be polled, and on
-- giving up one that is not watched. Otherwise it keeps the same interest as SelectAIO and gives the same answers,
-- except for is_watched, which never says true.
theorem epoll_refines_iff (pollable : Nat → Bool) (ops : List Op) (hops : ∀ op ∈ ops, op.flag ≠ .none) :
    ((serve (EPollAio.act pollable) .create ops).isSome = true ↔ Interest.empty.Admits pollable ops) ∧
      ∀ answers e, serve (EPollAio.act pollable) .create ops = some (answers, e) →
        answers = (Interest.empty.serve ops).1 ∧
          (∀ fd, e.interest fd = if (Interest.empty.serve ops).2 fd = (false, false) then none
            else some ((Interest.empty.serve ops).2 fd)) ∧
          ∀ fd flag, fd < MAX_POLL_FDS → flag ≠ .none → e.isWatched fd flag = some false := by
  obtain ⟨hyes, hno⟩ := create_mirrors_empty.serve hops
  by_cases hadmits : Interest.empty.Admits pollable ops
  · obtain ⟨last, hserve, hlast⟩ := hyes hadmits
    refine ⟨by simp [hserve, hadmits], fun answers e he => ?_⟩
    rw [hserve] at he
    cases he
    exact ⟨rfl, hlast.registered, fun fd flag hfd hflag => hlast.isWatched hfd hflag⟩
  · refine ⟨by simp [hno hadmits, hadmits], fun answers e he => ?_⟩
    rw [hno hadmits] at he
    cases he

-- A descriptor that is watched for writing for a while.
theorem epoll_refines_seven : ∃ e,
    serve (EPollAio.act fun fd => fd == 7) .create [.watch 7 .rdonly, .watch 7 .wronly, .unwatch 7 .wronly] =
      some ([none, none, some false], e) ∧ e.interest 7 = some (true, false) ∧ e.isWatched 7 .rdonly = some false := by
  have hboth := epoll_refines_iff (fun fd => fd == 7) [.watch 7 .rdonly, .watch 7 .wronly, .unwatch 7 .wronly]
    (by decide)
  have hadmits : Interest.empty.Admits (fun fd => fd == 7) [.watch 7 .rdonly, .watch 7 .wronly, .unwatch 7 .wronly] :=
    ⟨⟨by decide, rfl, trivial⟩, ⟨by decide, rfl, trivial⟩, ⟨by decide, rfl, by decide⟩, trivial⟩
  obtain ⟨⟨answers, e⟩, he⟩ := Option.isSome_iff_exists.mp (hboth.1.mpr hadmits)
  obtain ⟨rfl, hinterest, hwatched⟩ := hboth.2 answers e he
  exact ⟨e, he, (hinterest 7).trans (by decide), hwatched 7 .rdonly (by decide) (by decide)⟩

end EPoll

end CseLabs.PollMgr
