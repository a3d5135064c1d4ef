import CseLabs.Stream

namespace CseLabs.Stream

open Wire (Bytes SIZE_SZ MAX_PDU)

-- One side of a connection whose peer may send any bytes.
inductive Input
  | arrive (data : Bytes)
  | readCb (length body : Io) (accepted : Bool)
  deriving DecidableEq

def receive (c : Connection) : Input → Option Connection
  | .arrive data => some { c with arrived := c.arrived ++ data }
  | .readCb length body accepted => readCb c length body accepted

def Receive (c : Connection) (input : Input) (next : Connection) : Prop := receive c input = some next

-- The cursor is inside the PDU that is being received, and no read asks for more than there is room for.
structure Inside (c : Connection) : Prop where
  cursor : c.rpdu.buf ≠ none → 0 ≤ c.rpdu.solong ∧ c.rpdu.solong ≤ c.rpdu.sz ∧ c.rpdu.sz ≤ MAX_PDU
  room : ∀ read ∈ c.reads, (read.1 : Int) ≤ read.2

-- A length below sizeof(sz) is one that malloc cannot serve.
def Admitted (c : Connection) : Input → Prop
  | .arrive _ => True
  | .readCb length _ _ => ReadsLength c → length = .bytes SIZE_SZ →
      ntohl (c.arrived.take SIZE_SZ) < -SIZE_SZ ∨ (SIZE_SZ : Int) ≤ ntohl (c.arrived.take SIZE_SZ)

instance (c : Connection) : (input : Input) → Decidable (Admitted c input)
  | .arrive _ => inferInstanceAs (Decidable True)
  | .readCb length _ _ => inferInstanceAs (Decidable (ReadsLength c → length = .bytes SIZE_SZ →
      ntohl (c.arrived.take SIZE_SZ) < -SIZE_SZ ∨ (SIZE_SZ : Int) ≤ ntohl (c.arrived.take SIZE_SZ)))

section Sizes

variable {i sz : Int}

theorem toSize_of_nonneg (h : 0 ≤ i) (hmax : i ≤ MAX_PDU) : (toSize i : Int) = i := by
  unfold toSize
  unfold MAX_PDU at hmax
  omega

theorem allocated_of_nonneg (h : 0 ≤ sz) (hmax : sz ≤ MAX_PDU) : (allocated sz : Int) = sz + SIZE_SZ := by
  unfold allocated toSize SIZE_SZ
  unfold MAX_PDU at hmax
  omega

-- The count wraps around where the length is below the cursor, and the allocated size does not.
theorem short_overflows (hlow : -SIZE_SZ ≤ sz) (hhigh : sz < SIZE_SZ) :
    (allocated sz : Int) - SIZE_SZ < toSize (sz - SIZE_SZ) := by
  unfold allocated toSize
  unfold SIZE_SZ at *
  omega

theorem ntohl_ge (b : Bytes) : -2 ^ 31 ≤ ntohl b := by
  unfold ntohl
  split
  · exact Int32.le_toInt _
  · decide

theorem ge_of_allocated (b : Bytes) (h : allocated (ntohl b) < 2 ^ 63) : -SIZE_SZ ≤ ntohl b := by
  have hge := ntohl_ge b
  unfold allocated toSize at h
  unfold SIZE_SZ at *
  omega

end Sizes

section Turns

variable {c after : Connection} {body : Io} {succ accepted : Bool}

theorem Inside.readBody (h : Inside c) (hbuf : c.rpdu.buf ≠ none)
    (hbody : readBody c body = some (succ, after)) : Inside after := by
  obtain ⟨hlow, hle, hmax⟩ := h.cursor hbuf
  have hcount : (toSize (c.rpdu.sz - c.rpdu.solong) : Int) = _ := toSize_of_nonneg (by omega) (by omega)
  have halloc : (allocated c.rpdu.sz : Int) = _ := allocated_of_nonneg (by omega) hmax
  have hroom : ∀ read ∈ (toSize (c.rpdu.sz - c.rpdu.solong), (allocated c.rpdu.sz : Int) - c.rpdu.solong) :: c.reads,
      (read.1 : Int) ≤ read.2 := by
    refine List.forall_mem_cons.mpr ⟨?_, h.room⟩
    show (toSize (c.rpdu.sz - c.rpdu.solong) : Int) ≤ allocated c.rpdu.sz - c.rpdu.solong
    omega
  rcases readBody_cases hbody with ⟨n, -, -, hn, -, -, rfl⟩ | ⟨again, -, -, rfl⟩
  · refine ⟨fun _ => ?_, hroom⟩
    show 0 ≤ c.rpdu.solong + n ∧ c.rpdu.solong + n ≤ c.rpdu.sz ∧ c.rpdu.sz ≤ MAX_PDU
    omega
  · cases again with
    | true => exact ⟨fun _ => ⟨hlow, hle, hmax⟩, hroom⟩
    | false => exact ⟨fun hnone => absurd rfl hnone, hroom⟩

theorem Inside.offer (h : Inside c) : Inside (offer c accepted) := by
  unfold Stream.offer
  split
  · exact ⟨fun hnone => absurd rfl hnone, h.room⟩
  · exact h

theorem reads_readBody (hbody : readBody c body = some (succ, after)) :
    (toSize (c.rpdu.sz - c.rpdu.solong), (allocated c.rpdu.sz : Int) - c.rpdu.solong) ∈ after.reads := by
  rcases readBody_cases hbody with ⟨n, -, -, -, -, -, rfl⟩ | ⟨again, -, -, rfl⟩ <;> exact List.mem_cons_self

end Turns

theorem settled_of_reachable {c : Connection} (hr : Reachable Receive (· = {}) c) : Settled c := by
  refine hr.invariant Settled ?_ ?_
  · rintro c rfl
    exact ⟨fun _ => rfl, le_rfl⟩
  · intro c input next hsettled hstep
    cases input with
    | arrive data =>
        cases hstep
        exact hsettled
    | readCb length body accepted => exact hsettled.readCb hstep

theorem inside_step_iff {c next : Connection} {input : Input} (hsettled : Settled c) (h : Inside c)
    (hstep : Receive c input next) : Inside next ↔ Admitted c input := by
  cases input with
  | arrive data =>
      cases hstep
      exact ⟨fun _ => trivial, fun _ => ⟨h.cursor, h.room⟩⟩
  | readCb length body accepted =>
      rcases readCb_cases hsettled hstep with ⟨hdead, rfl⟩ | ⟨hdead, succ, after, hturn, rfl⟩
      · refine iff_of_true h fun hreads => ?_
        have hlive := hreads.1
        rw [hdead] at hlive
        cases hlive
      · cases hturn with
        | complete hbuf hfull =>
            exact iff_of_true (Inside.offer ⟨h.cursor, h.room⟩)
              fun hreads => absurd hreads (hsettled.not_readsLength hbuf)
        | noLength hidle rest hlength =>
            refine iff_of_true (Inside.offer ⟨h.cursor, h.room⟩) fun _ hwhole => .inr ?_
            have hbig := (hlength hwhole).2
            unfold MAX_PDU at hbig
            unfold SIZE_SZ at *
            omega
        | body hbuf hmore hbody =>
            have hafter := h.readBody hbuf hbody
            exact iff_of_true (Inside.offer ⟨hafter.cursor, hafter.room⟩)
              fun hreads => absurd hreads (hsettled.not_readsLength hbuf)
        | length hidle hwhole harrived hmax halloc hbody =>
            have hlow := ge_of_allocated _ halloc
            constructor
            · intro hnext hreads hbytes
              refine .inr (not_lt.mp fun hshort => ?_)
              have hread := reads_readBody hbody
              have hroom := hnext.room _ (by rw [offer_reads]; exact hread)
              exact absurd hroom (not_le.mpr (short_overflows hlow hshort))
            · intro hadmitted
              have hreads := readsLength_of_idle hdead hidle
              have hge := (hadmitted hreads hwhole).resolve_left (not_lt.mpr hlow)
              have hbegun : Inside (begun c) := ⟨fun _ => ⟨Int.natCast_nonneg SIZE_SZ, hge, hmax⟩, h.room⟩
              have hafter := hbegun.readBody (Option.some_ne_none _) hbody
              exact Inside.offer ⟨hafter.cursor, hafter.room⟩

-- Of the lengths a peer may send only those from -4 to 3 take a read out of the buffer: the larger
-- ones are checked, and for the smaller ones malloc fails.
theorem received_inside_iff (inputs : List Input) (c : Connection) (run : Run Receive (· = {}) inputs c) :
    (∀ before after mid, inputs = before ++ after → Run Receive (· = {}) before mid → Inside mid) ↔
      Run (Guarded Admitted Receive) (· = {}) inputs c := by
  refine run.guarded_iff ?_ ?_ ?_ ?_
  · rintro first second rfl rfl
    rfl
  · intro c input first second hfirst hsecond
    exact Option.some.inj (hfirst.symm.trans hsecond)
  · rintro c rfl
    exact ⟨fun hnone => absurd rfl hnone, nofun⟩
  · intro c input next hr hinside hstep
    exact inside_step_iff (settled_of_reachable hr) hinside hstep

-- A PDU of eight bytes in two parts, the first read of its body finding nothing.
def twoParts : List Input :=
  [.arrive [0, 0, 0, 8], .readCb (.bytes 4) (.failed true) true, .arrive [1, 2, 3, 4],
    .readCb (.bytes 4) (.bytes 4) true]

theorem received_inside_iff_parts : ∃ c, Run Receive (· = {}) twoParts c ∧
    c.pdus = [[0, 0, 0, 8, 1, 2, 3, 4]] ∧ c.reads = [(4, 8), (4, 8)] ∧ Inside c := by
  have hrun : (execute (fun c input => if Admitted c input then receive c input else none) {} twoParts).map
      (fun c => (c.pdus, c.reads)) = some ([[0, 0, 0, 8, 1, 2, 3, 4]], [(4, 8), (4, 8)]) := by
    decide +kernel
  obtain ⟨c, hc, hfields⟩ := Option.map_eq_some_iff.mp hrun
  obtain ⟨hpdus, hreads⟩ := Prod.mk.inj hfields
  have hguarded : Run (Guarded Admitted Receive) (· = {}) ([] ++ twoParts) c := Run.executed (.start rfl) hc
  have hplain : Run Receive (· = {}) twoParts c := hguarded.mono fun _ _ _ hmove => hmove.2
  exact ⟨c, hplain, hpdus, hreads,
    (received_inside_iff twoParts c hplain).mpr hguarded twoParts [] c (by simp) hplain⟩

-- A length of zero: the four bytes allocated hold the length, and the read behind them asks for
-- nearly everything, which the kernel refuses.
theorem length_zero_overflows : ∃ c,
    Run Receive (· = {}) [.arrive [0, 0, 0, 0, 7, 7], .readCb (.bytes 4) (.failed false) true] c ∧
      c.dead = true ∧ c.arrived = [7, 7] ∧ c.reads = [(2 ^ 64 - 4, 0)] ∧ ¬ Inside c := by
  have hrun : (execute receive {} [.arrive [0, 0, 0, 0, 7, 7], .readCb (.bytes 4) (.failed false) true]).map
      (fun c => (c.dead, c.arrived, c.reads)) = some (true, [7, 7], [(2 ^ 64 - 4, 0)]) := by
    decide +kernel
  obtain ⟨c, hc, hfields⟩ := Option.map_eq_some_iff.mp hrun
  obtain ⟨hdead, hfields⟩ := Prod.mk.inj hfields
  obtain ⟨harrived, hreads⟩ := Prod.mk.inj hfields
  have hplain : Run Receive (· = {})
      ([] ++ [.arrive [0, 0, 0, 0, 7, 7], .readCb (.bytes 4) (.failed false) true]) c :=
    Run.computed (.start rfl) hc
  refine ⟨c, hplain, hdead, harrived, hreads, fun hinside => ?_⟩
  have hroom := hinside.room (2 ^ 64 - 4, 0) (by rw [hreads]; exact List.mem_cons_self)
  exact absurd hroom (by decide)

end CseLabs.Stream
