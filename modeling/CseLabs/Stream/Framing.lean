import CseLabs.Stream
import CseLabs.Wire.Exact

namespace CseLabs.Stream

open Wire (Bytes SIZE_SZ RPC_HEADER_SZ MAX_PDU netBytes overwrite length_overwrite uint_of_bytes)

section Frames

variable {b : Bytes} {n : Nat}

theorem ofInt_natCast (n : Nat) : UInt32.ofInt (n : Int) = UInt32.ofNat n := by
  have hmod : ((n : Int) % 2 ^ 32).toNat = n % 2 ^ 32 := by omega
  rw [UInt32.ofInt, hmod]
  exact UInt32.ofNat_mod_size

theorem ntohl_netBytes (h : n < 2 ^ 31) : ntohl (netBytes (UInt32.ofNat n)) = n := by
  simp only [netBytes, ntohl, uint_of_bytes]
  rw [UInt32.toInt32_ofNat', Int32.toInt_ofNat_of_lt h]

theorem length_netBytes (x : UInt32) : (netBytes x).length = SIZE_SZ := rfl

theorem frame_eq (b : Bytes) : frame b = netBytes (UInt32.ofNat b.length) ++ b.drop SIZE_SZ := by
  rw [frame, overwrite, List.take_zero, List.nil_append, length_netBytes, Nat.zero_add]

theorem length_frame (h : SIZE_SZ ≤ b.length) : (frame b).length = b.length :=
  length_overwrite (by rwa [length_netBytes, Nat.zero_add])

theorem frame_frame (h : SIZE_SZ ≤ b.length) : frame (frame b) = frame b := by
  rw [frame_eq (frame b), length_frame h, frame_eq, List.drop_left' (length_netBytes _)]

theorem size_lt_of_header (h : RPC_HEADER_SZ ≤ b.length) : SIZE_SZ < b.length :=
  (by decide : SIZE_SZ < RPC_HEADER_SZ).trans_le h

-- A PDU of a size that send is used with, as writepdu leaves it.
structure Framed (b : Bytes) : Prop where
  long : RPC_HEADER_SZ ≤ b.length
  short : b.length ≤ MAX_PDU
  framed : frame b = b

theorem framed_frame (hlong : RPC_HEADER_SZ ≤ b.length) (hshort : b.length ≤ MAX_PDU) : Framed (frame b) := by
  have hsize := (size_lt_of_header hlong).le
  refine ⟨?_, ?_, frame_frame hsize⟩ <;> rwa [length_frame hsize]

theorem Framed.size_lt (h : Framed b) : SIZE_SZ < b.length := size_lt_of_header h.long

theorem Framed.ntohl_take (h : Framed b) : ntohl (b.take SIZE_SZ) = b.length := by
  have hsmall : b.length < 2 ^ 31 := h.short.trans_lt (by decide)
  rw [← h.framed, frame_eq, List.take_left' (length_netBytes _), ntohl_netBytes hsmall, ← frame_eq, h.framed]

end Frames

section Receiving

-- Without a PDU under way rpdu_ is empty; otherwise it is the front of the first one still expected.
def Awaits (rpdu : Charbuf) (rest : List Bytes) : Prop :=
  rpdu = {} ∨ ∃ b later k, rest = b :: later ∧ SIZE_SZ ≤ k ∧ k ≤ b.length ∧
    rpdu = { buf := some (b.take k), sz := b.length, solong := k }

-- What has been read of the next PDU, what has arrived and what comes after it are the expected PDUs.
structure Tracks (c : Connection) (rest : List Bytes) (more : Bytes) : Prop where
  awaits : Awaits c.rpdu rest
  stream : c.rpdu.buf.getD [] ++ c.arrived ++ more = rest.flatten

variable {c after next : Connection} {rest : List Bytes} {more : Bytes} {length body : Io} {succ accepted : Bool}

theorem Tracks.settled (h : Tracks c rest more) : Settled c := by
  rcases h.awaits with hidle | ⟨b, later, k, -, -, -, hrpdu⟩
  · exact ⟨fun _ => hidle, by rw [hidle]⟩
  · refine ⟨fun hnone => ?_, ?_⟩
    · rw [hrpdu] at hnone
      cases hnone
    · rw [hrpdu]
      exact Int.natCast_nonneg k

theorem Tracks.readBody (h : Tracks c rest more) (hbuf : c.rpdu.buf ≠ none)
    (hio : body.isBytes ∨ body = .failed true) (hbody : readBody c body = some (succ, after)) :
    succ = true ∧ Tracks after rest more ∧ after.pdus = c.pdus := by
  obtain hidle | ⟨b, later, k, rfl, hsize, hk, hrpdu⟩ := h.awaits
  · rw [hidle] at hbuf
    exact absurd rfl hbuf
  have hstream := h.stream
  rcases readBody_cases hbody with ⟨n, -, -, hn, harrived, rfl, rfl⟩ | ⟨again, hagain, rfl, rfl⟩
  · simp only [hrpdu, Option.getD_some, List.append_assoc, List.flatten_cons] at hstream hn
    have hcount : n ≤ b.length - k := by
      unfold toSize at hn
      omega
    -- what is left of the PDU comes next
    have hnext : c.arrived ++ more = b.drop k ++ later.flatten := by
      have hsplit : b.take k ++ (c.arrived ++ more) = b.take k ++ (b.drop k ++ later.flatten) := by
        rw [hstream, ← List.append_assoc (b.take k), List.take_append_drop]
      exact List.append_cancel_left hsplit
    have hdata : c.arrived.take n = (b.drop k).take n := by
      have htake := congrArg (List.take n) hnext
      rwa [List.take_append_of_le_length harrived, List.take_append_of_le_length (by simpa using hcount)] at htake
    have hjoin : b.take k ++ c.arrived.take n = b.take (k + n) := by rw [hdata, ← List.take_add]
    refine ⟨rfl, ⟨.inr ⟨b, later, k + n, rfl, by omega, by omega, ?_⟩, ?_⟩, rfl⟩
    · simp only [hrpdu, Option.map_some, hjoin, Nat.cast_add]
    · simp only [hrpdu, Option.map_some, Option.getD_some, List.append_assoc, List.flatten_cons]
      rw [← List.append_assoc (c.arrived.take n), List.take_append_drop, hstream]
  · obtain rfl : succ = true := by
      rcases hagain with rfl | rfl
      · simp [Io.isBytes] at hio
      · simpa [Io.isBytes] using hio
    exact ⟨rfl, ⟨.inr ⟨b, later, k, rfl, hsize, hk, hrpdu⟩, hstream⟩, rfl⟩

theorem Tracks.begun (h : Tracks c rest more) (hidle : c.rpdu = {}) (harrived : SIZE_SZ ≤ c.arrived.length)
    (hframed : ∀ b ∈ rest, Framed b) :
    ntohl (c.arrived.take SIZE_SZ) ≤ MAX_PDU ∧ Tracks (begun c) rest more := by
  have hstream : c.arrived ++ more = rest.flatten := by
    have hstream := h.stream
    rwa [hidle] at hstream
  cases rest with
  | nil =>
      have hnil := (List.append_eq_nil_iff.mp hstream).1
      rw [hnil] at harrived
      exact absurd harrived (by decide)
  | cons b later =>
      have hb := hframed b List.mem_cons_self
      have hfront : c.arrived.take SIZE_SZ = b.take SIZE_SZ := by
        have htake := congrArg (List.take SIZE_SZ) hstream
        rwa [List.take_append_of_le_length harrived, List.flatten_cons,
          List.take_append_of_le_length hb.size_lt.le] at htake
      have hsz : ntohl (c.arrived.take SIZE_SZ) = b.length := by rw [hfront, hb.ntohl_take]
      refine ⟨by rw [hsz]; exact_mod_cast hb.short,
        .inr ⟨b, later, SIZE_SZ, rfl, le_rfl, hb.size_lt.le, ?_⟩, ?_⟩
      · simp only [Stream.begun, hfront, hb.ntohl_take]
      · simp only [Stream.begun, Option.getD_some, List.take_append_drop, hstream]

theorem Tracks.offer (h : Tracks c rest more) (accepted : Bool) :
    ∃ rest', Tracks (offer c accepted) rest' more ∧ (offer c accepted).pdus ++ rest' = c.pdus ++ rest ∧
      rest' <:+ rest := by
  unfold Stream.offer
  split
  · next hfull =>
      obtain hidle | ⟨b, later, k, rfl, -, hk, hrpdu⟩ := h.awaits
      · rw [hidle] at hfull
        exact absurd rfl hfull.1
      have hstream := h.stream
      simp only [hrpdu] at hfull hstream ⊢
      obtain rfl : k = b.length := by omega
      rw [List.take_length] at hstream ⊢
      refine ⟨later, ⟨.inl rfl, ?_⟩, by simp, List.suffix_cons b later⟩
      simpa using hstream
  · exact ⟨rest, h, rfl, List.suffix_rfl⟩

-- A callback that reads a whole length, or no length, hands on what it should; the others end the connection.
theorem Tracks.readCb (h : Tracks c rest more) (hframed : ∀ b ∈ rest, Framed b) (halive : c.dead = false)
    (hio : body.isBytes ∨ body = .failed true) (hcb : readCb c length body accepted = some next) :
    (¬ (ReadsLength c → length = .bytes SIZE_SZ) → next.dead = true) ∧
    ((ReadsLength c → length = .bytes SIZE_SZ) → next.dead = false ∧
      ∃ rest', Tracks next rest' more ∧ next.pdus ++ rest' = c.pdus ++ rest ∧ rest' <:+ rest) := by
  obtain ⟨hdead, -⟩ | ⟨-, succ, after, hturn, rfl⟩ := readCb_cases h.settled hcb
  · rw [halive] at hdead
    cases hdead
  have hoffer : succ = true ∧ Tracks after rest more ∧ after.pdus = c.pdus →
      (Stream.offer { after with dead := !succ } accepted).dead = false ∧
        ∃ rest', Tracks (Stream.offer { after with dead := !succ } accepted) rest' more ∧
          (Stream.offer { after with dead := !succ } accepted).pdus ++ rest' = c.pdus ++ rest ∧ rest' <:+ rest := by
    rintro ⟨rfl, htracks, hpdus⟩
    have hmid : Tracks { after with dead := false } rest more := ⟨htracks.awaits, htracks.stream⟩
    rw [← hpdus]
    exact ⟨offer_dead _ _, hmid.offer accepted⟩
  cases hturn with
  | complete hbuf _ =>
      have hnone := h.settled.not_readsLength hbuf
      exact ⟨fun hshort => absurd (fun hreads => absurd hreads hnone) hshort, fun _ => hoffer ⟨rfl, h, rfl⟩⟩
  | noLength hidle rest hlength =>
      refine ⟨fun _ => offer_dead _ _, fun hwhole => ?_⟩
      obtain ⟨harrived, hbig⟩ := hlength (hwhole (readsLength_of_idle halive hidle))
      exact absurd (h.begun hidle harrived hframed).1 (not_le.mpr hbig)
  | length hidle hlength harrived _ _ hbody =>
      have hbegun := (h.begun hidle harrived hframed).2
      exact ⟨fun hshort => absurd (fun _ => hlength) hshort,
        fun _ => hoffer (hbegun.readBody (Option.some_ne_none _) hio hbody)⟩
  | body hbuf _ hbody =>
      have hnone := h.settled.not_readsLength hbuf
      exact ⟨fun hshort => absurd (fun hreads => absurd hreads hnone) hshort,
        fun _ => hoffer (h.readBody hbuf hio hbody)⟩

end Receiving

section Sending

variable {c next : Connection} {b out : Bytes} {k : Nat} {io : Io} {succ : Bool}

def unwritten (wpdu : Charbuf) : Bytes := (wpdu.buf.getD []).drop wpdu.solong.toNat

-- wpdu_ is empty or holds the PDU of a send that is not over.
def Writes (wpdu : Charbuf) : Prop :=
  wpdu = {} ∨ ∃ b k, Framed b ∧ k ≤ b.length ∧ wpdu = { buf := some b, sz := b.length, solong := k }

theorem writepdu_spec (hlong : RPC_HEADER_SZ ≤ b.length) (hk : k ≤ b.length) (hframe : k ≠ 0 → frame b = b)
    (hwpdu : c.wpdu = { buf := some b, sz := b.length, solong := k }) (hio : io ≠ .failed false)
    (h : writepdu c io = some (succ, next, out)) :
    succ = true ∧ ∃ k' ≤ b.length, next = { c with wpdu := { buf := some (frame b), sz := b.length, solong := k' } } ∧
      out ++ (frame b).drop k' = (frame b).drop k := by
  have hpos : RPC_HEADER_SZ ≠ 0 := by decide
  unfold writepdu at h
  simp only [hwpdu] at h
  rw [if_neg (by omega)] at h
  split at h
  · next hend =>
      cases h
      refine ⟨rfl, k, hk, ?_, List.nil_append _⟩
      rw [hframe (by omega), ← hwpdu]
  · next hend =>
      have hbuf : (if (k : Int) = 0 then (some b).map (overwrite · 0 (netBytes (UInt32.ofInt b.length))) else some b) =
          some (frame b) := by
        split
        · rw [ofInt_natCast]
          rfl
        · next hne => rw [hframe (by omega)]
      rw [hbuf] at h
      cases io with
      | bytes n =>
          simp only [Option.getD_some, Int.toNat_natCast] at h
          split at h
          · next hn =>
              cases h
              have hle := hn.2
              rw [List.length_drop, length_frame (size_lt_of_header hlong).le] at hle
              refine ⟨rfl, k + n, by omega, by rw [Nat.cast_add], ?_⟩
              rw [← List.drop_drop, List.take_append_drop]
          · cases h
      | zero again =>
          cases h
          exact ⟨rfl, k, hk, rfl, List.nil_append _⟩
      | failed again =>
          cases again with
          | false => exact absurd rfl hio
          | true =>
              cases h
              exact ⟨rfl, k, hk, rfl, List.nil_append _⟩

theorem Writes.eq_empty {wpdu : Charbuf} (h : Writes wpdu) (hbuf : wpdu.buf = none) : wpdu = {} := by
  rcases h with rfl | ⟨b, k, -, -, rfl⟩
  · rfl
  · cases hbuf

theorem send_spec (halive : c.dead = false) (hlong : RPC_HEADER_SZ ≤ b.length) (hshort : b.length ≤ MAX_PDU)
    (hio : io ≠ .failed false) (h : send c b io = some (next, out)) :
    c.wpdu.buf = none ∧ next.dead = false ∧ Writes next.wpdu ∧ out ++ unwritten next.wpdu = frame b := by
  have hsize := (size_lt_of_header hlong).le
  unfold send at h
  rw [halive, if_neg Bool.false_ne_true] at h
  split at h
  · cases h
  · next hfree =>
      refine ⟨not_not.mp hfree, ?_⟩
      simp only [Option.bind_eq_bind, Option.bind_eq_some_iff] at h
      obtain ⟨⟨succ, mid, out'⟩, hwrite, h⟩ := h
      obtain ⟨rfl, k, hk, rfl, hout⟩ := writepdu_spec hlong (Nat.zero_le _) (absurd rfl) rfl hio hwrite
      rw [List.drop_zero] at hout
      split at h
      · cases h
        refine ⟨rfl, .inr ⟨frame b, k, framed_frame hlong hshort, ?_, ?_⟩, ?_⟩
        · rwa [length_frame hsize]
        · rw [length_frame hsize]
        · simpa [unwritten] using hout
      · next hall =>
          cases h
          refine ⟨rfl, .inl rfl, ?_⟩
          have hend : k = b.length := by simpa using hall
          rw [hend, ← length_frame hsize, List.drop_length] at hout
          exact hout

theorem writeCb_spec (halive : c.dead = false) (hwrites : Writes c.wpdu) (hio : io ≠ .failed false)
    (h : writeCb c io = some (next, out)) :
    next.dead = false ∧ Writes next.wpdu ∧ out ++ unwritten next.wpdu = unwritten c.wpdu := by
  unfold writeCb at h
  rw [halive, if_neg Bool.false_ne_true] at h
  split at h
  · cases h
    exact ⟨halive, hwrites, List.nil_append _⟩
  · next hsz =>
      obtain hempty | ⟨b, k, hb, hk, hwpdu⟩ := hwrites
      · rw [hempty] at hsz
        exact absurd rfl hsz
      simp only [Option.bind_eq_bind, Option.bind_eq_some_iff] at h
      obtain ⟨⟨succ, mid, out'⟩, hwrite, h⟩ := h
      obtain ⟨rfl, k', hk', rfl, hout⟩ := writepdu_spec hb.long hk (fun _ => hb.framed) hwpdu hio hwrite
      rw [hb.framed] at h hout
      split at h
      · cases h
      · cases h
        refine ⟨rfl, .inr ⟨b, k', hb, hk', rfl⟩, ?_⟩
        simpa [unwritten, hwpdu] using hout

theorem sendComplete_spec (halive : c.dead = false) (hwrites : Writes c.wpdu) (h : sendComplete c = some next) :
    next.dead = false ∧ next.wpdu = {} ∧ unwritten c.wpdu = [] := by
  unfold sendComplete at h
  split at h
  · next hover =>
      cases h
      obtain hempty | ⟨b, k, -, -, hwpdu⟩ := hwrites
      · rw [hempty] at hover
        exact absurd rfl hover.1
      refine ⟨halive, rfl, ?_⟩
      have hend : b.length ≤ k := by
        simp only [halive, hwpdu] at hover
        rcases hover.2 with hdead | hneg | hle
        · cases hdead
        · omega
        · omega
      simpa [unwritten, hwpdu] using hend
  · cases h

end Sending

section Streams

variable {link next : Link} {rest : List Bytes} {event : Event}

-- The reads return data, but the read behind a length may find nothing yet, and no write fails.
def Flows (_ : Link) : Event → Prop
  | .send b io => RPC_HEADER_SZ ≤ b.length ∧ b.length ≤ MAX_PDU ∧ io ≠ .failed false
  | .writeCb io => io ≠ .failed false
  | .sendComplete => True
  | .readCb length body _ => length.isBytes ∧ (body.isBytes ∨ body = .failed true)

-- A length is read in one piece.
def Whole (link : Link) : Event → Prop
  | .send _ _ | .writeCb _ | .sendComplete => True
  | .readCb length _ _ => ReadsLength link.receiver → length = .bytes SIZE_SZ

-- A PDU that has been received whole and is offered at every callback until got_pdu accepts it.
def pending (rpdu : Charbuf) : List Bytes := if rpdu.sz = rpdu.solong then rpdu.buf.toList else []

-- The PDUs handed on are those sent, in their order, and once all bytes have been read none is missing.
structure Faithful (link : Link) : Prop where
  alive : link.receiver.dead = false
  ordered : link.receiver.pdus ++ pending link.receiver.rpdu <+: link.sent
  complete : link.sender.wpdu.buf = none → link.receiver.arrived = [] →
    link.receiver.pdus ++ pending link.receiver.rpdu = link.sent

structure Aligned (link : Link) (rest : List Bytes) : Prop where
  alive : link.receiver.dead = false
  up : link.sender.dead = false
  sent : link.sent = link.receiver.pdus ++ rest
  framed : ∀ b ∈ rest, Framed b
  writes : Writes link.sender.wpdu
  tracks : Tracks link.receiver rest (unwritten link.sender.wpdu)

theorem Awaits.append {rpdu : Charbuf} (h : Awaits rpdu rest) (extra : List Bytes) :
    Awaits rpdu (rest ++ extra) := by
  rcases h with hidle | ⟨b, later, k, rfl, hsize, hk, hrpdu⟩
  · exact .inl hidle
  · exact .inr ⟨b, later ++ extra, k, rfl, hsize, hk, hrpdu⟩

theorem eq_nil_of_flatten (hframed : ∀ b ∈ rest, Framed b) (h : rest.flatten = []) : rest = [] := by
  refine List.eq_nil_iff_forall_not_mem.mpr fun b hb => ?_
  have hsize := (hframed b hb).size_lt
  rw [List.flatten_eq_nil_iff.mp h b hb] at hsize
  exact absurd hsize (by decide)

theorem Aligned.faithful (h : Aligned link rest) : Faithful link := by
  have hstream := h.tracks.stream
  rcases h.tracks.awaits with hidle | ⟨b, later, k, rfl, -, hk, hrpdu⟩
  · have hpending : pending link.receiver.rpdu = [] := by rw [hidle]; rfl
    refine ⟨h.alive, ?_, fun hbuf harrived => ?_⟩
    · rw [hpending, List.append_nil, h.sent]
      exact List.prefix_append _ _
    · rw [hidle, harrived, h.writes.eq_empty hbuf] at hstream
      rw [hpending, h.sent, eq_nil_of_flatten h.framed hstream.symm]
  · have hpending : pending link.receiver.rpdu = if k = b.length then [b] else [] := by
      rw [hrpdu, pending]
      by_cases hall : k = b.length
      · simp [hall]
      · have hne : ¬ (b.length : Int) = k := by omega
        simp [hall, hne]
    refine ⟨h.alive, ?_, fun hbuf harrived => ?_⟩
    · rw [hpending, h.sent, List.prefix_append_right_inj]
      split
      · exact ⟨later, rfl⟩
      · exact List.nil_prefix
    · -- the bytes that were read are all there are, so this PDU is whole and the last one
      rw [hrpdu, harrived, h.writes.eq_empty hbuf] at hstream
      have hread : b.take k = b ++ later.flatten := by simpa [unwritten] using hstream
      have hlength := congrArg List.length hread
      simp only [List.length_take, List.length_append] at hlength
      have hlater : later.flatten = [] := List.length_eq_zero_iff.mp (by omega)
      have hnone := eq_nil_of_flatten (fun other hmem => h.framed other (List.mem_cons_of_mem _ hmem)) hlater
      rw [hpending, if_pos (by omega), h.sent, hnone]

-- What the sender does: it writes some of the bytes it still had to write or takes new PDUs.
theorem Aligned.sender (h : Aligned link rest) (extra : List Bytes) (out : Bytes)
    (hextra : ∀ b ∈ extra, Framed b) (hup : next.sender.dead = false) (hwrites : Writes next.sender.wpdu)
    (hout : out ++ unwritten next.sender.wpdu = unwritten link.sender.wpdu ++ extra.flatten)
    (hreceiver : next.receiver = { link.receiver with arrived := link.receiver.arrived ++ out })
    (hsent : next.sent = link.sent ++ extra) : Aligned next (rest ++ extra) := by
  have hstream := h.tracks.stream
  refine ⟨by rw [hreceiver]; exact h.alive, hup, ?_, ?_, hwrites, ?_, ?_⟩
  · rw [hsent, hreceiver, h.sent, List.append_assoc]
  · intro b hb
    exact (List.mem_append.mp hb).elim (h.framed b) (hextra b)
  · rw [hreceiver]
    exact h.tracks.awaits.append extra
  · rw [hreceiver, List.flatten_append, ← hstream]
    simp only [List.append_assoc, hout]

theorem aligned_step (h : Aligned link rest) (hflows : Flows link event) (hstep : Step link event next) :
    (¬ Whole link event → next.receiver.dead = true) ∧ (Whole link event → ∃ rest', Aligned next rest') := by
  cases event with
  | send b io =>
      obtain ⟨hlong, hshort, hio⟩ := hflows
      refine ⟨absurd trivial, fun _ => ⟨rest ++ [frame b], ?_⟩⟩
      simp only [Step, step, Option.bind_eq_bind, Option.bind_eq_some_iff, h.up] at hstep
      obtain ⟨⟨sender, out⟩, hsend, hnext⟩ := hstep
      cases hnext
      obtain ⟨hfree, hup, hwrites, hout⟩ := send_spec h.up hlong hshort hio hsend
      refine h.sender [frame b] out ?_ hup hwrites ?_ rfl rfl
      · simpa using framed_frame hlong hshort
      · rw [h.writes.eq_empty hfree]
        simpa [unwritten] using hout
  | writeCb io =>
      refine ⟨absurd trivial, fun _ => ⟨rest ++ [], ?_⟩⟩
      simp only [Step, step, Option.bind_eq_bind, Option.bind_eq_some_iff] at hstep
      obtain ⟨⟨sender, out⟩, hwrite, hnext⟩ := hstep
      cases hnext
      obtain ⟨hup, hwrites, hout⟩ := writeCb_spec h.up h.writes hflows hwrite
      exact h.sender [] out nofun hup hwrites (by simpa using hout) rfl (List.append_nil _).symm
  | sendComplete =>
      refine ⟨absurd trivial, fun _ => ⟨rest ++ [], ?_⟩⟩
      simp only [Step, step, Option.bind_eq_bind, Option.bind_eq_some_iff] at hstep
      obtain ⟨sender, hover, hnext⟩ := hstep
      cases hnext
      obtain ⟨hup, hempty, hout⟩ := sendComplete_spec h.up h.writes hover
      refine h.sender [] [] nofun hup (.inl hempty) ?_ ?_ (List.append_nil _).symm
      · rw [hempty, hout]
        rfl
      · simp
  | readCb length body accepted =>
      simp only [Step, step, Option.bind_eq_bind, Option.bind_eq_some_iff] at hstep
      obtain ⟨receiver, hread, hnext⟩ := hstep
      cases hnext
      obtain ⟨hshort, hwhole⟩ := h.tracks.readCb h.framed h.alive hflows.2 hread
      refine ⟨hshort, fun hlength => ?_⟩
      obtain ⟨halive, rest', htracks, hpdus, hsuffix⟩ := hwhole hlength
      exact ⟨rest', halive, h.up, h.sent.trans hpdus.symm, fun b hb => h.framed b (hsuffix.subset hb), h.writes,
        htracks⟩

theorem dead_step (hdead : link.receiver.dead = true) (hstep : Step link event next) : next.receiver.dead = true := by
  cases event
  case readCb length body accepted =>
    simp only [Step, step, readCb, hdead, if_true, Option.bind_eq_bind, Option.bind_some] at hstep
    cases hstep
    exact hdead
  all_goals
    simp only [Step, step, Option.bind_eq_bind, Option.bind_eq_some_iff] at hstep
    obtain ⟨_, _, hnext⟩ := hstep
    cases hnext
    exact hdead

theorem aligned_of_reachable (hr : Reachable (Guarded Flows Step) (· = {}) link) :
    link.receiver.dead = true ∨ ∃ rest, Aligned link rest := by
  refine hr.invariant (fun link => link.receiver.dead = true ∨ ∃ rest, Aligned link rest) ?_ ?_
  · rintro link rfl
    exact .inr ⟨[], rfl, rfl, rfl, nofun, .inl rfl, .inl rfl, rfl⟩
  · rintro link event next (hdead | ⟨rest, haligned⟩) ⟨hflows, hstep⟩
    · exact .inl (dead_step hdead hstep)
    · obtain ⟨hshort, hwhole⟩ := aligned_step haligned hflows hstep
      by_cases hlength : Whole link event
      · exact .inr (hwhole hlength)
      · exact .inl (hshort hlength)

-- The framing does not depend on where the stream is cut as long as no cut is inside a length.
theorem framing_faithful_iff (events : List Event) (link : Link)
    (run : Run (Guarded Flows Step) (· = {}) events link) :
    (∀ before after mid, events = before ++ after → Run (Guarded Flows Step) (· = {}) before mid → Faithful mid) ↔
      Run (Guarded Whole (Guarded Flows Step)) (· = {}) events link := by
  refine run.guarded_iff ?_ ?_ ?_ ?_
  · rintro first second rfl rfl
    rfl
  · intro link event first second hfirst hsecond
    exact Option.some.inj (hfirst.2.symm.trans hsecond.2)
  · rintro link rfl
    exact ⟨rfl, List.prefix_rfl, fun _ _ => rfl⟩
  · rintro link event next hr hfaithful ⟨hflows, hstep⟩
    obtain hdead | ⟨rest, haligned⟩ := aligned_of_reachable hr
    · rw [hfaithful.alive] at hdead
      cases hdead
    obtain ⟨hshort, hwhole⟩ := aligned_step haligned hflows hstep
    refine ⟨fun hnext => ?_, fun hlength => ?_⟩
    · by_contra hlength
      have halive := hnext.alive
      rw [hshort hlength] at halive
      cases halive
    · obtain ⟨rest', hnext⟩ := hwhole hlength
      exact hnext.faithful

end Streams

instance (link : Link) : (event : Event) → Decidable (Flows link event)
  | .send b io =>
      inferInstanceAs (Decidable (RPC_HEADER_SZ ≤ b.length ∧ b.length ≤ MAX_PDU ∧ io ≠ .failed false))
  | .writeCb io => inferInstanceAs (Decidable (io ≠ .failed false))
  | .sendComplete => inferInstanceAs (Decidable True)
  | .readCb length body _ =>
      inferInstanceAs (Decidable (length.isBytes ∧ (body.isBytes ∨ body = .failed true)))

instance (link : Link) : (event : Event) → Decidable (Whole link event)
  | .send _ _ | .writeCb _ | .sendComplete => inferInstanceAs (Decidable True)
  | .readCb length _ _ => inferInstanceAs (Decidable (ReadsLength link.receiver → length = .bytes SIZE_SZ))

-- The shortest PDU.
def shortest : Bytes := List.replicate RPC_HEADER_SZ 9

-- Its bytes are written in two pieces and read in four, and the manager refuses it at first.
def pieces : List Event :=
  [.send shortest (.bytes 7), .readCb (.bytes 4) (.bytes 2) true, .readCb (.bytes 1) (.bytes 1) true,
    .writeCb (.bytes 17), .sendComplete, .readCb (.bytes 1) (.bytes 17) false, .readCb (.bytes 1) (.bytes 1) true]

theorem framing_faithful_iff_pieces : ∃ link, Run (Guarded Flows Step) (· = {}) pieces link ∧
    link.receiver.pdus = [frame shortest] ∧ Faithful link := by
  have hrun : (execute (fun link event => if Whole link event ∧ Flows link event then step link event else none)
      {} pieces).map (fun link => link.receiver.pdus) = some [frame shortest] := by
    decide +kernel
  obtain ⟨link, hlink, hpdus⟩ := Option.map_eq_some_iff.mp hrun
  have hboth : Run (Guarded (fun link event => Whole link event ∧ Flows link event) Step) (· = {})
      ([] ++ pieces) link := Run.executed (.start rfl) hlink
  have hwhole : Run (Guarded Whole (Guarded Flows Step)) (· = {}) pieces link :=
    hboth.mono fun _ _ _ hmove => ⟨hmove.1.1, hmove.1.2, hmove.2⟩
  have hflows : Run (Guarded Flows Step) (· = {}) pieces link := hwhole.mono fun _ _ _ hmove => hmove.2
  exact ⟨link, hflows, hpdus, (framing_faithful_iff pieces link hflows).mpr hwhole pieces [] link (by simp) hflows⟩

-- The same PDU, written at once: the first read returns two of the four bytes of its length.
theorem split_length_kills : ∃ link,
    Run (Guarded Flows Step) (· = {}) [.send shortest (.bytes 24), .readCb (.bytes 2) (.failed true) true] link ∧
      link.sent = [frame shortest] ∧ link.receiver.dead = true ∧ link.receiver.pdus = [] ∧ ¬ Faithful link := by
  have hrun : (execute (fun link event => if Flows link event then step link event else none)
      {} [.send shortest (.bytes 24), .readCb (.bytes 2) (.failed true) true]).map
        (fun link => (link.sent, link.receiver.dead, link.receiver.pdus)) = some ([frame shortest], true, []) := by
    decide +kernel
  obtain ⟨link, hlink, hfields⟩ := Option.map_eq_some_iff.mp hrun
  simp only [Prod.mk.injEq] at hfields
  obtain ⟨hsent, hdead, hpdus⟩ := hfields
  have hflows : Run (Guarded Flows Step) (· = {})
      ([] ++ [.send shortest (.bytes 24), .readCb (.bytes 2) (.failed true) true]) link :=
    Run.executed (.start rfl) hlink
  refine ⟨link, hflows, hsent, hdead, hpdus, fun hfaithful => ?_⟩
  rw [hfaithful.alive] at hdead
  cases hdead

end CseLabs.Stream
