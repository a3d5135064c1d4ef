import Mathlib.Tactic
import CseLabs.Wire

namespace CseLabs.Wire

section Bytes

-- The conversion to a byte drops what the mask drops.
theorem toUInt8_and_uint16 (x : UInt16) : (x &&& 0xff).toUInt8 = x.toUInt8 := by
  apply UInt8.toNat_inj.mp
  rw [UInt16.toNat_toUInt8, UInt16.toNat_toUInt8, UInt16.toNat_and,
    show UInt16.toNat 0xff = 2 ^ 8 - 1 from rfl, Nat.and_two_pow_sub_one_eq_mod, Nat.mod_mod]

theorem toUInt8_and_uint32 (x : UInt32) : (x &&& 0xff).toUInt8 = x.toUInt8 := by
  apply UInt8.toNat_inj.mp
  rw [UInt32.toNat_toUInt8, UInt32.toNat_toUInt8, UInt32.toNat_and,
    show UInt32.toNat 0xff = 2 ^ 8 - 1 from rfl, Nat.and_two_pow_sub_one_eq_mod, Nat.mod_mod]

-- The copies of the sign bit are above the byte that is kept.
theorem setWidth_sshiftRight (x : BitVec 32) {k : Nat} (hk : k ≤ 24) :
    (x.sshiftRight k &&& 0xff#32).setWidth 8 = (x >>> k).setWidth 8 := by
  have hmask : ∀ i < 8, (0xff#32).getLsbD i = true := by decide
  apply BitVec.eq_of_getLsbD_eq
  intro i hi
  have hin : k + i < 32 := by omega
  have hout : ¬ 32 ≤ i := by omega
  simp only [BitVec.getLsbD_setWidth, BitVec.getLsbD_and, BitVec.getLsbD_sshiftRight,
    BitVec.getLsbD_ushiftRight, hmask i hi, hin, hout, if_true, decide_false, Bool.not_false, Bool.and_true,
    Bool.true_and]

end Bytes

section Buffer

theorem length_overwrite {buf data : Bytes} {ind : Nat} (h : ind + data.length ≤ buf.length) :
    (overwrite buf ind data).length = buf.length := by
  simp only [overwrite, List.length_append, List.length_take, List.length_drop]
  omega

theorem overwrite_nil {buf : Bytes} {ind : Nat} : overwrite buf ind [] = buf := by
  rw [overwrite, List.append_nil, List.length_nil, Nat.add_zero, List.take_append_drop]

-- One piece after another is one piece.
theorem overwrite_append {buf fresh data more : Bytes} {ind : Nat} (h : ind + data.length ≤ buf.length) :
    overwrite (overwrite buf ind data ++ fresh) (ind + data.length) more =
      overwrite (buf ++ fresh) ind (data ++ more) := by
  have htake : (buf.take ind ++ data).length = ind + data.length := by
    rw [List.length_append, List.length_take, Nat.min_eq_left (by omega)]
  have hfront : (buf ++ fresh).take ind = buf.take ind := List.take_append_of_le_length (by omega)
  have hback : (buf ++ fresh).drop (ind + data.length) = buf.drop (ind + data.length) ++ fresh :=
    List.drop_append_of_le_length h
  rw [overwrite, overwrite, overwrite, hfront, List.length_append, ← Nat.add_assoc, List.append_assoc _ _ fresh,
    List.take_left' htake, ← List.drop_drop, List.drop_left' htake, ← hback, List.drop_drop]
  simp only [List.append_assoc]

theorem overwrite_middle {front old back data : Bytes} {ind : Nat} (hind : front.length = ind)
    (hold : old.length = data.length) :
    overwrite (front ++ (old ++ back)) ind data = front ++ (data ++ back) := by
  rw [overwrite, List.take_left' hind, ← List.drop_drop, List.drop_left' hind, List.drop_left' hold, List.append_assoc]

-- Arguments behind the header's room, then the header in it, then the size.
theorem take_overwrites {base code header size : Bytes} (hbase : RPC_HEADER_SZ + code.length ≤ base.length)
    (hheader : SIZE_SZ + header.length ≤ RPC_HEADER_SZ) (hsize : size.length = SIZE_SZ) :
    ∃ unused : Bytes, SIZE_SZ + header.length + unused.length = RPC_HEADER_SZ ∧
      (overwrite (overwrite (overwrite base RPC_HEADER_SZ code) SIZE_SZ header) 0 size).take
        (RPC_HEADER_SZ + code.length) = size ++ (header ++ (unused ++ code)) := by
  obtain ⟨room, hroom⟩ : ∃ room, room = base.take RPC_HEADER_SZ := ⟨_, rfl⟩
  have hlen : room.length = RPC_HEADER_SZ := by
    rw [hroom, List.length_take, Nat.min_eq_left (by omega)]
  have hfirst : (room.take SIZE_SZ).length = SIZE_SZ := by
    rw [List.length_take, hlen]
    omega
  have hsecond : ((room.drop SIZE_SZ).take header.length).length = header.length := by
    rw [List.length_take, List.length_drop, hlen]
    omega
  have hsplit : room = room.take SIZE_SZ ++ ((room.drop SIZE_SZ).take header.length ++
      (room.drop SIZE_SZ).drop header.length) := by
    rw [List.take_append_drop, List.take_append_drop]
  refine ⟨(room.drop SIZE_SZ).drop header.length, ?_, ?_⟩
  · rw [List.length_drop, List.length_drop, hlen]
    omega
  · have hargs : overwrite base RPC_HEADER_SZ code = room.take SIZE_SZ ++ ((room.drop SIZE_SZ).take header.length ++
        ((room.drop SIZE_SZ).drop header.length ++ (code ++ base.drop (RPC_HEADER_SZ + code.length)))) := by
      rw [overwrite, ← hroom]
      nth_rewrite 1 [hsplit]
      simp only [List.append_assoc]
    rw [hargs, overwrite_middle hfirst hsecond, ← List.nil_append (room.take SIZE_SZ ++ _),
      overwrite_middle List.length_nil (hfirst.trans hsize.symm), List.nil_append]
    have htotal : (size ++ (header ++ ((room.drop SIZE_SZ).drop header.length ++ code))).length =
        RPC_HEADER_SZ + code.length := by
      simp only [List.length_append, List.length_drop, hlen, hsize]
      omega
    rw [← htotal]
    simp only [← List.append_assoc]
    exact List.take_left

end Buffer

section Laws

-- The writer puts the code at the cursor. The buffer grows when it has to, and only then.
def Puts (put : Put) (code : Bytes) : Prop :=
  ∀ m : Marshall, 0 < m.buf.length → m.ind ≤ m.buf.length → 2 * (m.ind + code.length) < 2 ^ 31 →
    ∃ fresh : Bytes, put m = some ((), ⟨overwrite (m.buf ++ fresh) m.ind code, m.ind + code.length⟩) ∧
      m.ind + code.length ≤ m.buf.length + fresh.length ∧
      (m.ind + code.length ≤ m.buf.length → fresh = [])

theorem puts_pure : Puts (pure ()) [] := by
  intro m _ hind _
  refine ⟨[], ?_, by simpa using hind, fun _ => rfl⟩
  rw [overwrite_nil, List.append_nil]
  rfl

theorem Puts.bind {put next : Put} {code more : Bytes} (h : Puts put code) (hnext : Puts next more) :
    Puts (put >>= fun _ => next) (code ++ more) := by
  intro m hpos hind hsmall
  rw [List.length_append] at hsmall ⊢
  obtain ⟨fresh, hput, hroom, hfresh⟩ := h m hpos hind (by omega)
  have hin : m.ind + code.length ≤ (m.buf ++ fresh).length := by rwa [List.length_append]
  have hlen := length_overwrite hin
  obtain ⟨fresh', hput', hroom', hfresh'⟩ :=
    hnext ⟨overwrite (m.buf ++ fresh) m.ind code, m.ind + code.length⟩
      (by rw [hlen, List.length_append]; omega) (by rwa [hlen])
      (by show 2 * (m.ind + code.length + more.length) < 2 ^ 31; omega)
  simp only [hlen, List.length_append] at hroom' hfresh'
  refine ⟨fresh ++ fresh', ?_, by rw [List.length_append]; omega, fun hfits => ?_⟩
  · rw [Input.bind_of_eq_some hput, hput', overwrite_append hin, List.append_assoc, Nat.add_assoc]
  · rw [hfresh (by omega), hfresh' (by omega), List.append_nil]

theorem Puts.forM {α : Type} {put : α → Put} {code : α → Bytes} {items : List α}
    (h : ∀ x ∈ items, Puts (put x) (code x)) : Puts (items.forM put) (items.flatMap code) := by
  induction items with
  | nil => exact puts_pure
  | cons x items ih =>
      rw [List.flatMap_cons]
      exact (h x List.mem_cons_self).bind (ih fun y hy => h y (List.mem_cons_of_mem x hy))

variable (junk : Nat → UInt8)

theorem realloc_run {m : Marshall} {capa : Nat} (h : capa < 2 ^ 31) :
    realloc junk capa m = some ((), { m with buf := m.buf ++ (List.range (capa - m.buf.length)).map junk }) :=
  if_pos h

theorem store_run {m : Marshall} {data : Bytes} (h : m.ind + data.length ≤ m.buf.length) :
    store data m = some ((), ⟨overwrite m.buf m.ind data, m.ind + data.length⟩) :=
  if_pos h

-- rawbyte and rawbytes: the buffer is made larger if the data does not fit.
theorem puts_grow {data : Bytes} {full : Marshall → Prop} [DecidablePred full] {capa : Marshall → Nat}
    (hfull : ∀ m, full m ↔ m.buf.length < m.ind + data.length)
    (hcapa : ∀ m : Marshall, 0 < m.buf.length → m.ind ≤ m.buf.length → full m →
      m.ind + data.length ≤ capa m ∧ capa m ≤ 2 * (m.ind + data.length)) :
    Puts (do
      let m ← get
      if full m then
        realloc junk (capa m)
      store data) data := by
  intro m hpos hind hsmall
  by_cases hroom : full m
  · obtain ⟨hlo, hhi⟩ := hcapa m hpos hind hroom
    have hlen : (m.buf ++ (List.range (capa m - m.buf.length)).map junk).length = capa m := by
      rw [List.length_append, List.length_map, List.length_range]
      have := (hfull m).mp hroom
      omega
    refine ⟨(List.range (capa m - m.buf.length)).map junk, ?_, ?_, fun h => ?_⟩
    · show (if full m then realloc junk (capa m) >>= fun _ => store data else store data) m = _
      rw [if_pos hroom, Input.bind_of_eq_some (realloc_run junk (by omega))]
      exact store_run (by rwa [hlen])
    · rwa [← List.length_append, hlen]
    · exact absurd ((hfull m).mp hroom) (not_lt.mpr h)
  · have hfits : m.ind + data.length ≤ m.buf.length := not_lt.mp fun h => hroom ((hfull m).mpr h)
    refine ⟨[], ?_, by simpa using hfits, fun _ => rfl⟩
    show (if full m then realloc junk (capa m) >>= fun _ => store data else store data) m = _
    rw [if_neg hroom, store_run hfits, List.append_nil]

theorem puts_rawbyte (x : UInt8) : Puts (Marshall.rawbyte junk x) [x] := by
  refine puts_grow junk (fun m => ?_) fun m hpos hind hfull => ?_
  · rw [List.length_singleton]
    exact Nat.lt_succ_iff.symm
  · have hle : m.buf.length ≤ m.ind := hfull
    show m.ind + 1 ≤ 2 * m.buf.length ∧ 2 * m.buf.length ≤ 2 * (m.ind + 1)
    omega

theorem puts_rawbytes (p : Bytes) : Puts (Marshall.rawbytes junk p) p := by
  refine puts_grow junk (fun m => Iff.rfl) fun m _ hind hfull => ?_
  split <;> omega

theorem puts_putUshort (x : UInt16) : Puts (putUshort junk x) [(x >>> 8).toUInt8, x.toUInt8] := by
  rw [putUshort, toUInt8_and_uint16, toUInt8_and_uint16]
  exact (puts_rawbyte junk _).bind (puts_rawbyte junk _)

theorem puts_bytes (a b c d : UInt8) : Puts (do
    Marshall.rawbyte junk a
    Marshall.rawbyte junk b
    Marshall.rawbyte junk c
    Marshall.rawbyte junk d) [a, b, c, d] :=
  (puts_rawbyte junk a).bind ((puts_rawbyte junk b).bind ((puts_rawbyte junk c).bind (puts_rawbyte junk d)))

theorem puts_putUint (x : UInt32) : Puts (putUint junk x) (netBytes x) := by
  simp only [putUint, toUInt8_and_uint32]
  exact puts_bytes junk _ _ _ _

theorem puts_pack (x : Int32) : Puts (pack junk x) (netBytes x.toUInt32) := by
  have h24 : (x >>> 24 &&& 0xff).toUInt32.toUInt8 = (x.toUInt32 >>> 24).toUInt8 :=
    UInt8.eq_of_toBitVec_eq (setWidth_sshiftRight x.toBitVec (by decide : 24 ≤ 24))
  have h16 : (x >>> 16 &&& 0xff).toUInt32.toUInt8 = (x.toUInt32 >>> 16).toUInt8 :=
    UInt8.eq_of_toBitVec_eq (setWidth_sshiftRight x.toBitVec (by decide : 16 ≤ 24))
  have h8 : (x >>> 8 &&& 0xff).toUInt32.toUInt8 = (x.toUInt32 >>> 8).toUInt8 :=
    UInt8.eq_of_toBitVec_eq (setWidth_sshiftRight x.toBitVec (by decide : 8 ≤ 24))
  have h0 : (x &&& 0xff).toUInt32.toUInt8 = x.toUInt32.toUInt8 := toUInt8_and_uint32 x.toUInt32
  rw [pack, h24, h16, h8, h0]
  exact puts_bytes junk _ _ _ _

-- operator<< writes the wire format.
theorem puts_put (t : Ty) (v : t.Val) : Puts (t.put junk v) (t.encode v) := by
  induction t with
  | bool => exact puts_rawbyte junk _
  | char => exact puts_rawbyte junk _
  | uchar => exact puts_rawbyte junk _
  | short => exact puts_putUshort junk _
  | ushort => exact puts_putUshort junk _
  | int => exact puts_putUint junk _
  | uint => exact puts_putUint junk _
  | ull => exact (puts_putUint junk _).bind (puts_putUint junk _)
  | string => exact (puts_putUint junk _).bind (puts_rawbytes junk _)
  | vector t ih => exact (puts_putUint junk _).bind (Puts.forM fun x _ => ih x)
  | map k t ihk iht => exact (puts_putUint junk _).bind (Puts.forM fun e _ => (ihk e.1).bind (iht e.2))

theorem puts_putArgs (args : List Arg) : Puts (putArgs junk args) (encodeArgs args) :=
  Puts.forM fun arg _ => puts_put junk arg.1 arg.2

end Laws

section Header

-- What a header looks like on the wire.
def Header.encode : Header → Bytes
  | .req h => netBytes h.xid.toUInt32 ++ (netBytes h.proc.toUInt32 ++ (netBytes h.cltNonce ++
      (netBytes h.srvNonce ++ netBytes h.xidRep.toUInt32)))
  | .reply h => netBytes h.xid.toUInt32 ++ netBytes h.ret.toUInt32

theorem Header.length_encode_le (header : Header) : SIZE_SZ + header.encode.length ≤ RPC_HEADER_SZ := by
  cases header with
  | req h => exact Nat.le_refl 24
  | reply h => exact (by decide : 12 ≤ 24)

variable (junk : Nat → UInt8)

-- The header goes into the buffer as it is; the cursor comes back.
theorem atHeader_run {body : Put} {code : Bytes} (h : Puts body code) {m : Marshall}
    (hcode : SIZE_SZ + code.length ≤ RPC_HEADER_SZ) (hlen : RPC_HEADER_SZ ≤ m.buf.length) :
    atHeader body m = some ((), ⟨overwrite m.buf SIZE_SZ code, m.ind⟩) := by
  have hsize : SIZE_SZ + code.length ≤ m.buf.length := hcode.trans hlen
  have hsmall : 2 * (SIZE_SZ + code.length) < 2 ^ 31 :=
    lt_of_le_of_lt (Nat.mul_le_mul_left 2 hcode) (by decide)
  obtain ⟨fresh, hbody, -, hfresh⟩ :=
    h { m with ind := SIZE_SZ } (lt_of_lt_of_le (by decide) hlen) (by show SIZE_SZ ≤ m.buf.length; omega) hsmall
  rw [hfresh hsize, List.append_nil] at hbody
  show (body { m with ind := SIZE_SZ }).bind _ = _
  rw [hbody]
  rfl

theorem packHeader_run {m : Marshall} (header : Header) (hlen : RPC_HEADER_SZ ≤ m.buf.length) :
    packHeader junk header m = some ((), ⟨overwrite m.buf SIZE_SZ header.encode, m.ind⟩) := by
  have hcode := header.length_encode_le
  cases header with
  | req h =>
      refine atHeader_run ?_ hcode hlen
      exact (puts_pack junk _).bind ((puts_pack junk _).bind ((puts_pack junk _).bind
        ((puts_pack junk _).bind (puts_pack junk _))))
  | reply h =>
      refine atHeader_run ?_ hcode hlen
      exact (puts_pack junk _).bind (puts_pack junk _)

-- The size, the header, what is left of its room, and the arguments.
theorem sent_eq (header : Header) (args : List Arg) (size : UInt32) (hsmall : (encodeArgs args).length < MAX_PDU) :
    ∃ unused : Bytes, SIZE_SZ + header.encode.length + unused.length = RPC_HEADER_SZ ∧
      sent junk header args size = some (netBytes size ++ (header.encode ++ (unused ++ encodeArgs args))) := by
  have hnew : (Marshall.new junk).buf.length = DEFAULT_RPC_SZ := by
    rw [Marshall.new, List.length_map, List.length_range]
  have hmax : 2 * (RPC_HEADER_SZ + (encodeArgs args).length) < 2 ^ 31 := by
    have hpdu : MAX_PDU = 10485760 := rfl
    have hheader : RPC_HEADER_SZ = 24 := rfl
    omega
  have hheader : RPC_HEADER_SZ ≤ (Marshall.new junk).buf.length := by
    rw [hnew]
    decide
  obtain ⟨fresh, hargs, hroom, -⟩ := puts_putArgs junk args (Marshall.new junk)
    (lt_of_lt_of_le (by decide) hheader) hheader hmax
  have hbase : RPC_HEADER_SZ + (encodeArgs args).length ≤ ((Marshall.new junk).buf ++ fresh).length := by
    rwa [List.length_append]
  obtain ⟨unused, hunused, htake⟩ :=
    take_overwrites hbase header.length_encode_le (show (netBytes size).length = SIZE_SZ from rfl)
  refine ⟨unused, hunused, ?_⟩
  have hmarshalled : (do putArgs junk args; packHeader junk header : Put) (Marshall.new junk) =
      some ((), ⟨overwrite (overwrite ((Marshall.new junk).buf ++ fresh) RPC_HEADER_SZ (encodeArgs args))
        SIZE_SZ header.encode, RPC_HEADER_SZ + (encodeArgs args).length⟩) := by
    rw [Input.bind_of_eq_some hargs]
    refine packHeader_run junk header ?_
    show RPC_HEADER_SZ ≤ (overwrite _ RPC_HEADER_SZ _).length
    rw [length_overwrite hbase]
    omega
  rw [sent, hmarshalled]
  exact congrArg some htake

end Header

end CseLabs.Wire
