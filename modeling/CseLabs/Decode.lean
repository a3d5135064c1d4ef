import Mathlib.Data.List.Basic

namespace CseLabs

-- What a reader's state says of its input: the part still to be read, and whether everything
-- asked for so far was there. A reader may also be undefined, which is `none`.
structure Input (σ β : Type) where
  left : σ → List β
  live : σ → Prop
  dead : σ → Prop

-- for (i = 0; i < n; i++) acc = body(acc)
def loop {σ α : Type} (body : α → StateT σ Option α) : Nat → α → StateT σ Option α
  | 0, acc => pure acc
  | n + 1, acc => body acc >>= loop body n

namespace Input

variable {σ β α γ ι : Type} (input : Input σ β)

-- Once something was missing, the reader goes on to its end and the state stays dead.
def Sticky (read : StateT σ Option α) : Prop :=
  ∀ state, input.dead state → ∃ value final, read state = some (value, final) ∧ input.dead final

-- The reader takes the code, whatever follows it, and gives the value. An input that ends
-- inside the code leaves the state dead.
structure Decodes (read : StateT σ Option α) (code : List β) (value : α) : Prop where
  full : ∀ state rest, input.live state → input.left state = code ++ rest →
    ∃ final, read state = some (value, final) ∧ input.live final ∧ input.left final = rest
  short : ∀ state more, input.live state → input.left state ++ more = code → more ≠ [] →
    ∃ other final, read state = some (other, final) ∧ input.dead final

variable {input}

theorem bind_of_eq_some {read : StateT σ Option α} {next : α → StateT σ Option γ} {state mid : σ} {value : α}
    (h : read state = some (value, mid)) : (read >>= next) state = next value mid := by
  show (read state).bind (fun result => next result.1 result.2) = _
  rw [h, Option.bind_some]

theorem sticky_pure (value : α) : input.Sticky (pure value) :=
  fun state hdead => ⟨value, state, rfl, hdead⟩

theorem Sticky.bind {read : StateT σ Option α} {next : α → StateT σ Option γ} (h : input.Sticky read)
    (hnext : ∀ value, input.Sticky (next value)) : input.Sticky (read >>= next) := by
  intro state hdead
  obtain ⟨value, mid, hread, hmid⟩ := h state hdead
  obtain ⟨result, final, hfinal, hend⟩ := hnext value mid hmid
  exact ⟨result, final, by rw [bind_of_eq_some hread, hfinal], hend⟩

theorem Sticky.loop {body : α → StateT σ Option α} (h : ∀ acc, input.Sticky (body acc)) (n : Nat) (acc : α) :
    input.Sticky (loop body n acc) := by
  induction n generalizing acc with
  | zero => exact sticky_pure acc
  | succ n ih => exact (h acc).bind ih

theorem decodes_pure (value : α) : input.Decodes (pure value) [] value where
  full state _ hlive hleft := ⟨state, rfl, hlive, hleft⟩
  short _ _ _ hleft hmore := absurd (List.append_eq_nil_iff.mp hleft).2 hmore

theorem Decodes.bind {read : StateT σ Option α} {next : α → StateT σ Option γ} {code rest : List β}
    {value : α} {result : γ} (h : input.Decodes read code value) (hnext : input.Decodes (next value) rest result)
    (hsticky : ∀ value, input.Sticky (next value)) : input.Decodes (read >>= next) (code ++ rest) result := by
  constructor
  · intro state after hlive hleft
    rw [List.append_assoc] at hleft
    obtain ⟨mid, hread, hmid, hmidLeft⟩ := h.full state _ hlive hleft
    obtain ⟨final, hfinal, hend⟩ := hnext.full mid after hmid hmidLeft
    exact ⟨final, by rw [bind_of_eq_some hread, hfinal], hend⟩
  · intro state more hlive hleft hmore
    -- The input ends inside the first code, or after it.
    rcases List.append_eq_append_iff.mp hleft with ⟨tail, hcode, -⟩ | ⟨tail, hin, hrest⟩
    · by_cases htail : tail = []
      · rw [htail, List.append_nil] at hcode
        obtain ⟨mid, hread, hmid, hmidLeft⟩ := h.full state [] hlive (by rw [List.append_nil, hcode])
        obtain ⟨other, final, hfinal, hdead⟩ := hnext.short mid more hmid
          (by
            rw [hmidLeft, List.nil_append]
            rw [hcode] at hleft
            exact List.append_cancel_left hleft) hmore
        exact ⟨other, final, by rw [bind_of_eq_some hread, hfinal], hdead⟩
      · obtain ⟨other, mid, hread, hmid⟩ := h.short state tail hlive hcode.symm htail
        obtain ⟨result, final, hfinal, hdead⟩ := hsticky other mid hmid
        exact ⟨result, final, by rw [bind_of_eq_some hread, hfinal], hdead⟩
    · obtain ⟨mid, hread, hmid, hmidLeft⟩ := h.full state tail hlive hin
      obtain ⟨other, final, hfinal, hdead⟩ := hnext.short mid more hmid (by rw [hmidLeft, hrest]) hmore
      exact ⟨other, final, by rw [bind_of_eq_some hread, hfinal], hdead⟩

theorem Decodes.map {read : StateT σ Option α} {code : List β} {value : α} (h : input.Decodes read code value)
    (f : α → γ) : input.Decodes (read >>= fun x => pure (f x)) code (f value) := by
  have hbind := h.bind (decodes_pure (f value)) fun x => sticky_pure (f x)
  rwa [List.append_nil] at hbind

-- The codes of the items stand one after another, and the loop runs once for each.
theorem Decodes.loop {body : α → StateT σ Option α} {code : ι → List β} {next : α → ι → α} {items : List ι}
    (h : ∀ item ∈ items, ∀ acc, input.Decodes (body acc) (code item) (next acc item))
    (hsticky : ∀ acc, input.Sticky (body acc)) (acc : α) :
    input.Decodes (loop body items.length acc) (items.flatMap code) (items.foldl next acc) := by
  induction items generalizing acc with
  | nil => exact decodes_pure acc
  | cons item items ih =>
      have hrest := ih (fun x hx => h x (List.mem_cons_of_mem _ hx)) (next acc item)
      rw [List.flatMap_cons]
      exact (h item List.mem_cons_self acc).bind hrest (Sticky.loop hsticky items.length)

end Input

section Faults

variable {σ α γ : Type} {inv : σ → Prop}

-- The reader keeps the invariant, and is undefined in the states with a fault and in no others.
structure Faults (inv : σ → Prop) (read : StateT σ Option α) (fault : σ → Prop) : Prop where
  kept : ∀ state value final, inv state → read state = some (value, final) → inv final
  iff : ∀ state, inv state → (read state = none ↔ fault state)

-- A fault comes in the first reader, or in the second after the first.
def faultAfter (read : StateT σ Option α) (first : σ → Prop) (second : α → σ → Prop) (state : σ) : Prop :=
  first state ∨ ∃ value mid, read state = some (value, mid) ∧ second value mid

-- A fault comes in some turn of the loop.
def faultInLoop (body : α → StateT σ Option α) (fault : α → σ → Prop) (n : Nat) (acc : α) (state : σ) : Prop :=
  ∃ i < n, ∃ value mid, loop body i acc state = some (value, mid) ∧ fault value mid

theorem faults_pure (value : α) : Faults inv (pure value) fun _ => False where
  kept state _ final hinv h := by
    cases h
    exact hinv
  iff state _ := iff_of_false (Option.some_ne_none _) not_false

theorem Faults.bind {read : StateT σ Option α} {next : α → StateT σ Option γ} {first : σ → Prop}
    {second : α → σ → Prop} (h : Faults inv read first) (hnext : ∀ value, Faults inv (next value) (second value)) :
    Faults inv (read >>= next) (faultAfter read first second) := by
  constructor
  · intro state result final hinv hrun
    obtain ⟨⟨value, mid⟩, hread, hrest⟩ := Option.bind_eq_some_iff.mp hrun
    exact (hnext value).kept mid result final (h.kept state value mid hinv hread) hrest
  · intro state hinv
    cases hread : read state with
    | none =>
        have hnone : (read >>= next) state = none := by
          show (read state).bind _ = none
          rw [hread, Option.bind_none]
        exact iff_of_true hnone (.inl ((h.iff state hinv).mp hread))
    | some result =>
        obtain ⟨value, mid⟩ := result
        rw [Input.bind_of_eq_some hread, (hnext value).iff mid (h.kept state value mid hinv hread)]
        constructor
        · exact fun hfault => .inr ⟨value, mid, hread, hfault⟩
        · rintro (hfirst | ⟨value', mid', hread', hfault⟩)
          · rw [(h.iff state hinv).mpr hfirst] at hread
            cases hread
          · rw [hread] at hread'
            cases hread'
            exact hfault

theorem Faults.congr {read : StateT σ Option α} {fault fault' : σ → Prop} (h : Faults inv read fault)
    (hiff : ∀ state, inv state → (fault state ↔ fault' state)) : Faults inv read fault' where
  kept := h.kept
  iff state hinv := (h.iff state hinv).trans (hiff state hinv)

theorem Faults.map {read : StateT σ Option α} {fault : σ → Prop} (h : Faults inv read fault) (f : α → γ) :
    Faults inv (read >>= fun value => pure (f value)) fault := by
  refine (h.bind fun value => faults_pure (f value)).congr fun state _ => ?_
  simp [faultAfter]

theorem faultInLoop_succ {body : α → StateT σ Option α} {fault : α → σ → Prop} {n : Nat} {acc : α} {state : σ} :
    faultInLoop body fault (n + 1) acc state ↔
      faultAfter (body acc) (fault acc) (fun value => faultInLoop body fault n value) state := by
  constructor
  · rintro ⟨i, hi, value, mid, hrun, hfault⟩
    cases i with
    | zero =>
        cases hrun
        exact .inl hfault
    | succ i =>
        obtain ⟨⟨first, next⟩, hfirst, hrest⟩ := Option.bind_eq_some_iff.mp hrun
        exact .inr ⟨first, next, hfirst, i, Nat.lt_of_succ_lt_succ hi, value, mid, hrest, hfault⟩
  · rintro (hfault | ⟨first, next, hfirst, i, hi, value, mid, hrest, hfault⟩)
    · exact ⟨0, Nat.succ_pos n, acc, state, rfl, hfault⟩
    · refine ⟨i + 1, Nat.succ_lt_succ hi, value, mid, ?_, hfault⟩
      rw [loop, Input.bind_of_eq_some hfirst, hrest]

theorem Faults.loop {body : α → StateT σ Option α} {fault : α → σ → Prop}
    (h : ∀ acc, Faults inv (body acc) (fault acc)) (n : Nat) (acc : α) :
    Faults inv (loop body n acc) (faultInLoop body fault n acc) := by
  induction n generalizing acc with
  | zero => exact (faults_pure acc).congr fun state _ => by simp [faultInLoop]
  | succ n ih => exact ((h acc).bind ih).congr fun state _ => faultInLoop_succ.symm

end Faults

end CseLabs
