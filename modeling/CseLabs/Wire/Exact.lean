import Mathlib.Data.FinEnum
import CseLabs.Wire.Writes

namespace CseLabs.Wire

section Words

-- The mask takes the sign extension away again.
theorem and_extended (b : UInt8) : b.toInt8.toInt32.toUInt32 &&& 0xff = b.toUInt32 := by
  decide +revert +kernel

theorem toUInt8_extended (b : UInt8) : b.toInt8.toInt32.toUInt32.toUInt8 = b := by
  decide +revert +kernel

theorem mul_or_of_lt {a b k : Nat} (hb : b < 2 ^ k) : a * 2 ^ k ||| b = a * 2 ^ k + b := by
  rw [Nat.mul_comm, Nat.two_pow_add_eq_or_of_lt hb]

theorem uint_of_bytes (x : UInt32) :
    (x >>> 24).toUInt8.toUInt32 <<< 24 ||| (x >>> 16).toUInt8.toUInt32 <<< 16 |||
      (x >>> 8).toUInt8.toUInt32 <<< 8 ||| x.toUInt8.toUInt32 = x := by
  have hx := x.toNat_lt
  apply UInt32.toNat_inj.mp
  simp only [UInt32.toNat_or, UInt32.toNat_shiftLeft, UInt8.toNat_toUInt32, UInt32.toNat_toUInt8,
    UInt32.toNat_shiftRight, UInt32.reduceToNat, Nat.reduceMod, Nat.shiftRight_eq_div_pow, Nat.shiftLeft_eq]
  generalize x.toNat = n at *
  have hhigh : n / 2 ^ 24 % 2 ^ 8 * 2 ^ 24 % 2 ^ 32 ||| n / 2 ^ 16 % 2 ^ 8 * 2 ^ 16 % 2 ^ 32 =
      n / 2 ^ 16 * 2 ^ 16 := by
    rw [Nat.mod_eq_of_lt (by omega), mul_or_of_lt (by omega)]
    omega
  have hmiddle : n / 2 ^ 16 * 2 ^ 16 ||| n / 2 ^ 8 % 2 ^ 8 * 2 ^ 8 % 2 ^ 32 = n / 2 ^ 8 * 2 ^ 8 := by
    rw [mul_or_of_lt (by omega)]
    omega
  have hlow : n / 2 ^ 8 * 2 ^ 8 ||| n % 2 ^ 8 = n := by
    rw [mul_or_of_lt (by omega)]
    omega
  rw [hhigh, hmiddle, hlow]

theorem ushort_of_bytes (x : UInt16) :
    ((x >>> 8).toUInt8.toUInt32 <<< 8).toUInt16 ||| x.toUInt8.toUInt32.toUInt16 = x := by
  have hx := x.toNat_lt
  apply UInt16.toNat_inj.mp
  simp only [UInt16.toNat_or, UInt32.toNat_toUInt16, UInt32.toNat_shiftLeft, UInt8.toNat_toUInt32,
    UInt16.toNat_toUInt8, UInt16.toNat_shiftRight, UInt32.reduceToNat, UInt16.reduceToNat, Nat.reduceMod,
    Nat.shiftRight_eq_div_pow, Nat.shiftLeft_eq]
  generalize x.toNat = n at *
  have hhigh : n / 2 ^ 8 % 2 ^ 8 * 2 ^ 8 % 2 ^ 32 % 2 ^ 16 = n / 2 ^ 8 * 2 ^ 8 := by omega
  rw [hhigh, mul_or_of_lt (by omega)]
  omega

theorem ull_of_words (x : UInt64) : x.toUInt32.toUInt64 ||| (x >>> 32).toUInt32.toUInt64 <<< 32 = x := by
  have hx := x.toNat_lt
  apply UInt64.toNat_inj.mp
  simp only [UInt64.toNat_or, UInt64.toNat_shiftLeft, UInt32.toNat_toUInt64, UInt64.toNat_toUInt32,
    UInt64.toNat_shiftRight, UInt64.reduceToNat, Nat.reduceMod, Nat.shiftRight_eq_div_pow, Nat.shiftLeft_eq]
  generalize x.toNat = n at *
  have hhigh : n / 2 ^ 32 % 2 ^ 32 * 2 ^ 32 % 2 ^ 64 = n / 2 ^ 32 * 2 ^ 32 := by omega
  rw [Nat.or_comm, hhigh, mul_or_of_lt (by omega)]
  omega

end Words

section Readers

-- The bytes from the cursor on. No reader changes the buffer.
def input (pdu : Bytes) : Input Unmarshall UInt8 where
  left u := u.buf.drop u.ind
  live u := u.buf = pdu ∧ u.ok = true ∧ u.ind ≤ u.buf.length
  dead u := u.buf = pdu ∧ u.ok = false

variable (pdu : Bytes)

theorem sticky_rawbyte : (input pdu).Sticky Unmarshall.rawbyte := by
  intro u hdead
  rw [Unmarshall.rawbyte]
  split
  · exact ⟨_, _, rfl, hdead⟩
  · exact ⟨_, _, rfl, hdead.1, rfl⟩

theorem decodes_rawbyte (b : UInt8) :
    (input pdu).Decodes Unmarshall.rawbyte [b] b.toInt8.toInt32.toUInt32 := by
  constructor
  · intro u rest hlive hleft
    have hleft : u.buf.drop u.ind = b :: rest := hleft
    have hlt : u.ind < u.buf.length := by
      by_contra hge
      rw [List.drop_eq_nil_of_le (not_lt.mp hge)] at hleft
      cases hleft
    rw [List.drop_eq_getElem_cons hlt, List.cons.injEq] at hleft
    refine ⟨{ u with ind := u.ind + 1 }, ?_, ⟨hlive.1, hlive.2.1, hlt⟩, hleft.2⟩
    rw [Unmarshall.rawbyte, dif_pos hlt, hleft.1]
  · intro u more hlive hleft hmore
    have hnil : u.buf.drop u.ind = [] := by
      rcases List.append_eq_singleton_iff.mp hleft with ⟨hnil, -⟩ | ⟨-, hnil⟩
      · exact hnil
      · exact absurd hnil hmore
    have hge : ¬ u.ind < u.buf.length := not_lt.mpr (List.drop_eq_nil_iff.mp hnil)
    exact ⟨0, { u with ok := false }, by rw [Unmarshall.rawbyte, dif_neg hge], hlive.1, rfl⟩

theorem sticky_getUshort : (input pdu).Sticky getUshort :=
  (sticky_rawbyte pdu).bind fun _ => (sticky_rawbyte pdu).bind fun _ => Input.sticky_pure _

theorem decodes_getUshort (x : UInt16) : (input pdu).Decodes getUshort [(x >>> 8).toUInt8, x.toUInt8] x := by
  have hvalue := ushort_of_bytes x
  rw [← and_extended, ← and_extended] at hvalue
  nth_rewrite 3 [← hvalue]
  refine (decodes_rawbyte pdu _).bind ((decodes_rawbyte pdu _).map _) fun _ => ?_
  exact (sticky_rawbyte pdu).bind fun _ => Input.sticky_pure _

theorem sticky_getUint : (input pdu).Sticky getUint :=
  (sticky_rawbyte pdu).bind fun _ => (sticky_rawbyte pdu).bind fun _ => (sticky_rawbyte pdu).bind fun _ =>
    (sticky_rawbyte pdu).bind fun _ => Input.sticky_pure _

theorem decodes_getUint (x : UInt32) : (input pdu).Decodes getUint (netBytes x) x := by
  have hvalue := uint_of_bytes x
  simp only [← and_extended] at hvalue
  nth_rewrite 2 [← hvalue]
  refine (decodes_rawbyte pdu _).bind ((decodes_rawbyte pdu _).bind ((decodes_rawbyte pdu _).bind
    ((decodes_rawbyte pdu _).map _) fun _ => ?_) fun _ => ?_) fun _ => ?_
  · exact (sticky_rawbyte pdu).bind fun _ => Input.sticky_pure _
  · exact (sticky_rawbyte pdu).bind fun _ => (sticky_rawbyte pdu).bind fun _ => Input.sticky_pure _
  · exact (sticky_rawbyte pdu).bind fun _ => (sticky_rawbyte pdu).bind fun _ => (sticky_rawbyte pdu).bind fun _ =>
      Input.sticky_pure _

theorem sticky_getInt : (input pdu).Sticky getInt :=
  (sticky_getUint pdu).bind fun _ => Input.sticky_pure _

theorem decodes_getInt (x : Int32) : (input pdu).Decodes getInt (netBytes x.toUInt32) x :=
  (decodes_getUint pdu x.toUInt32).map UInt32.toInt32

theorem sticky_getUll : (input pdu).Sticky getUll :=
  (sticky_getUint pdu).bind fun _ => (sticky_getUint pdu).bind fun _ => Input.sticky_pure _

theorem decodes_getUll (x : UInt64) :
    (input pdu).Decodes getUll (netBytes (x >>> 32).toUInt32 ++ netBytes x.toUInt32) x := by
  nth_rewrite 3 [← ull_of_words x]
  refine (decodes_getUint pdu _).bind ((decodes_getUint pdu _).map _) fun _ => ?_
  exact (sticky_getUint pdu).bind fun _ => Input.sticky_pure _

-- What a string reads behind its size.
def stringBody (n : UInt32) : Get Bytes := do
  if (← get).ok then Unmarshall.rawbytes n else pure []

theorem stringBody_of_ok {u : Unmarshall} (n : UInt32) (hok : u.ok = true) :
    stringBody n u = Unmarshall.rawbytes n u := by
  show (if u.ok then Unmarshall.rawbytes n else pure []) u = _
  rw [if_pos hok]

theorem sticky_stringBody (n : UInt32) : (input pdu).Sticky (stringBody n) := by
  intro u hdead
  refine ⟨[], u, ?_, hdead⟩
  show (if u.ok then Unmarshall.rawbytes n else pure []) u = _
  rw [hdead.2]
  rfl

theorem decodes_stringBody {s : Bytes} (hs : s.length < 2 ^ 31) :
    (input pdu).Decodes (stringBody (UInt32.ofNat s.length)) s s := by
  have hn : (UInt32.ofNat s.length).toNat = s.length := UInt32.toNat_ofNat_of_lt' (hs.trans (by decide))
  constructor
  · intro u rest hlive hleft
    have hleft : u.buf.drop u.ind = s ++ rest := hleft
    have hfits := u.fits
    have hlen : u.buf.length - u.ind = s.length + rest.length := by
      rw [← List.length_drop, hleft, List.length_append]
    have hind := hlive.2.2
    refine ⟨{ u with ind := u.ind + s.length }, ?_, ⟨hlive.1, hlive.2.1, ?_⟩, ?_⟩
    · rw [stringBody_of_ok _ hlive.2.1, Unmarshall.rawbytes, hn, if_neg (by omega), if_pos (by omega), hleft,
        List.take_left]
    · show u.ind + s.length ≤ u.buf.length
      omega
    · show u.buf.drop (u.ind + s.length) = rest
      rw [← List.drop_drop, hleft, List.drop_left]
  · intro u more hlive hleft hmore
    have hleft : u.buf.drop u.ind ++ more = s := hleft
    have hfits := u.fits
    have hind := hlive.2.2
    have hpos := List.length_pos_iff.mpr hmore
    have hlen : u.buf.length - u.ind + more.length = s.length := by
      rw [← List.length_drop, ← List.length_append, hleft]
    refine ⟨[], { u with ok := false }, ?_, hlive.1, rfl⟩
    rw [stringBody_of_ok _ hlive.2.1, Unmarshall.rawbytes, hn, if_pos (by omega)]

theorem sticky_getString : (input pdu).Sticky getString :=
  (sticky_getUint pdu).bind (sticky_stringBody pdu)

theorem decodes_getString {s : Bytes} (hs : s.length < 2 ^ 31) :
    (input pdu).Decodes getString (netBytes (UInt32.ofNat s.length) ++ s) s :=
  (decodes_getUint pdu _).bind (decodes_stringBody pdu hs) (sticky_stringBody pdu)

end Readers

section Containers

variable {pdu : Bytes} {α β : Type}

theorem foldl_push (acc v : List α) : v.foldl (fun acc z => acc ++ [z]) acc = acc ++ v := by
  induction v generalizing acc with
  | nil => exact (List.append_nil acc).symm
  | cons z v ih => rw [List.foldl_cons, ih, List.append_assoc, List.singleton_append]

theorem insertEntry_of_lt [LinearOrder α] {a : α} {b : β} {l : List (α × β)} (h : ∀ e ∈ l, e.1 < a) :
    insertEntry a b l = l ++ [(a, b)] := by
  induction l with
  | nil => rfl
  | cons head rest ih =>
      obtain ⟨k, v⟩ := head
      have hlt : k < a := h (k, v) List.mem_cons_self
      rw [insertEntry, if_neg (not_lt.mpr hlt.le), if_neg hlt.ne',
        ih fun e he => h e (List.mem_cons_of_mem _ he), List.cons_append]

-- The entries come in ascending order, so each goes to the end.
theorem entries_foldl_insert [LinearOrder α] {d : StdMap α β} {l : List (α × β)}
    (h : (d.entries ++ l).Pairwise (·.1 < ·.1)) :
    (l.foldl (fun d e => d.insert e.1 e.2) d).entries = d.entries ++ l := by
  induction l generalizing d with
  | nil => exact (List.append_nil d.entries).symm
  | cons e l ih =>
      have hlast : (d.insert e.1 e.2).entries = d.entries ++ [e] :=
        insertEntry_of_lt fun e' he' => (List.pairwise_append.mp h).2.2 e' he' e List.mem_cons_self
      have hstep : (d.insert e.1 e.2).entries ++ l = d.entries ++ e :: l := by
        rw [hlast, List.append_assoc, List.singleton_append]
      rw [List.foldl_cons, ih (by rwa [hstep]), hstep]

theorem foldl_insert_entries [LinearOrder α] (d : StdMap α β) :
    d.entries.foldl (fun d e => d.insert e.1 e.2) .empty = d :=
  StdMap.entries_inj (entries_foldl_insert d.ascending)

theorem le_length_flatMap (code : α → Bytes) {l : List α} {x : α} (h : x ∈ l) :
    (code x).length ≤ (l.flatMap code).length := by
  obtain ⟨front, back, rfl⟩ := List.append_of_mem h
  simp only [List.flatMap_append, List.flatMap_cons, List.length_append]
  omega

theorem length_le_length_flatMap {code : α → Bytes} (hpos : ∀ x, 0 < (code x).length) (l : List α) :
    l.length ≤ (l.flatMap code).length := by
  induction l with
  | nil => exact Nat.le_refl 0
  | cons x l ih =>
      have hx := hpos x
      rw [List.flatMap_cons, List.length_append, List.length_cons]
      omega

theorem sticky_getVector {read : Get α} (h : (input pdu).Sticky read) : (input pdu).Sticky (getVector read) :=
  (sticky_getUint pdu).bind fun n => Input.Sticky.loop (fun _ => h.bind fun _ => Input.sticky_pure _) n.toNat []

theorem decodes_getVector {read : Get α} {code : α → Bytes} (hpos : ∀ z, 0 < (code z).length)
    (hsticky : (input pdu).Sticky read) (h : ∀ z, (code z).length < 2 ^ 31 → (input pdu).Decodes read (code z) z)
    {v : List α} (hv : (netBytes (UInt32.ofNat v.length) ++ v.flatMap code).length < 2 ^ 31) :
    (input pdu).Decodes (getVector read) (netBytes (UInt32.ofNat v.length) ++ v.flatMap code) v := by
  rw [List.length_append] at hv
  have hcount : v.length < 2 ^ 32 := by
    have hle := length_le_length_flatMap hpos v
    omega
  have hbody : ∀ acc : List α, (input pdu).Sticky (do let z ← read; pure (acc ++ [z])) :=
    fun _ => hsticky.bind fun _ => Input.sticky_pure _
  have hread : ∀ z ∈ v, (input pdu).Decodes read (code z) z := fun z hz => h z <| by
    have hle := le_length_flatMap code hz
    omega
  have hloop := Input.Decodes.loop (fun z hz acc => (hread z hz).map fun z => acc ++ [z]) hbody []
  rw [foldl_push, List.nil_append] at hloop
  refine (decodes_getUint pdu _).bind ?_ fun n => Input.Sticky.loop hbody n.toNat []
  rwa [UInt32.toNat_ofNat_of_lt' hcount]

theorem sticky_getMap [LinearOrder α] {readKey : Get α} {read : Get β} (hk : (input pdu).Sticky readKey)
    (h : (input pdu).Sticky read) : (input pdu).Sticky (getMap readKey read) :=
  (sticky_getUint pdu).bind fun n =>
    Input.Sticky.loop (fun _ => hk.bind fun _ => h.bind fun _ => Input.sticky_pure _) n.toNat StdMap.empty

theorem decodes_getMap [LinearOrder α] {readKey : Get α} {read : Get β} {codeKey : α → Bytes} {code : β → Bytes}
    (hpos : ∀ a, 0 < (codeKey a).length) (hkSticky : (input pdu).Sticky readKey) (hsticky : (input pdu).Sticky read)
    (hk : ∀ a, (codeKey a).length < 2 ^ 31 → (input pdu).Decodes readKey (codeKey a) a)
    (h : ∀ b, (code b).length < 2 ^ 31 → (input pdu).Decodes read (code b) b) {d : StdMap α β}
    (hd : (netBytes (UInt32.ofNat d.entries.length) ++
      d.entries.flatMap fun e => codeKey e.1 ++ code e.2).length < 2 ^ 31) :
    (input pdu).Decodes (getMap readKey read)
      (netBytes (UInt32.ofNat d.entries.length) ++ d.entries.flatMap fun e => codeKey e.1 ++ code e.2) d := by
  rw [List.length_append] at hd
  have hcount : d.entries.length < 2 ^ 32 := by
    have hle := length_le_length_flatMap (fun e : α × β => lt_of_lt_of_le (hpos e.1)
      (by rw [List.length_append]; exact Nat.le_add_right _ (code e.2).length)) d.entries
    omega
  have hsmall : ∀ e ∈ d.entries, (codeKey e.1).length + (code e.2).length < 2 ^ 31 := fun e he => by
    have hle := le_length_flatMap (fun e => codeKey e.1 ++ code e.2) he
    rw [List.length_append] at hle
    omega
  have hpair : ∀ (acc : StdMap α β) (a : α), (input pdu).Sticky (do let b ← read; pure (acc.insert a b)) :=
    fun _ _ => hsticky.bind fun _ => Input.sticky_pure _
  have hbody : ∀ acc : StdMap α β,
      (input pdu).Sticky (do let a ← readKey; let b ← read; pure (acc.insert a b)) :=
    fun acc => hkSticky.bind (hpair acc)
  have hentry : ∀ e ∈ d.entries, ∀ acc : StdMap α β,
      (input pdu).Decodes (do let a ← readKey; let b ← read; pure (acc.insert a b))
        (codeKey e.1 ++ code e.2) (acc.insert e.1 e.2) := fun e he acc => by
    have hlen := hsmall e he
    exact (hk e.1 (by omega)).bind ((h e.2 (by omega)).map fun b => acc.insert e.1 b) (hpair acc)
  have hloop := Input.Decodes.loop hentry hbody StdMap.empty
  rw [foldl_insert_entries] at hloop
  refine (decodes_getUint pdu _).bind ?_ fun n => Input.Sticky.loop hbody n.toNat StdMap.empty
  rwa [UInt32.toNat_ofNat_of_lt' hcount]

end Containers

section Values

variable (pdu : Bytes)

theorem Ty.encode_pos (t : Ty) (v : t.Val) : 0 < (t.encode v).length := by
  cases t <;> exact Nat.succ_pos _

theorem sticky_get (t : Ty) : (input pdu).Sticky t.get := by
  induction t with
  | bool => exact (sticky_rawbyte pdu).bind fun _ => Input.sticky_pure _
  | char => exact (sticky_rawbyte pdu).bind fun _ => Input.sticky_pure _
  | uchar => exact (sticky_rawbyte pdu).bind fun _ => Input.sticky_pure _
  | short => exact (sticky_getUshort pdu).bind fun _ => Input.sticky_pure _
  | ushort => exact sticky_getUshort pdu
  | int => exact sticky_getInt pdu
  | uint => exact sticky_getUint pdu
  | ull => exact sticky_getUll pdu
  | string => exact sticky_getString pdu
  | vector t ih => exact sticky_getVector ih
  | map k t ihk iht => exact sticky_getMap ihk iht

theorem decodes_getBool (x : Bool) : (input pdu).Decodes getBool [if x then 1 else 0] x := by
  cases x with
  | false => exact (decodes_rawbyte pdu 0).map (· != 0)
  | true => exact (decodes_rawbyte pdu 1).map (· != 0)

theorem decodes_getUchar (x : UInt8) : (input pdu).Decodes getUchar [x] x := by
  have hget := (decodes_rawbyte pdu x).map UInt32.toUInt8
  rwa [toUInt8_extended] at hget

theorem decodes_getChar (x : Int8) : (input pdu).Decodes getChar [x.toUInt8] x := by
  have hget := (decodes_rawbyte pdu x.toUInt8).map fun b => b.toUInt8.toInt8
  rwa [toUInt8_extended] at hget

-- operator>> reads the wire format, and nothing else.
theorem decodes_get (t : Ty) (v : t.Val) (h : (t.encode v).length < 2 ^ 31) :
    (input pdu).Decodes t.get (t.encode v) v := by
  induction t with
  | bool => exact decodes_getBool pdu v
  | char => exact decodes_getChar pdu v
  | uchar => exact decodes_getUchar pdu v
  | short => exact (decodes_getUshort pdu (Int16.toUInt16 v)).map UInt16.toInt16
  | ushort => exact decodes_getUshort pdu v
  | int => exact decodes_getInt pdu v
  | uint => exact decodes_getUint pdu v
  | ull => exact decodes_getUll pdu v
  | string => exact decodes_getString pdu (lt_of_le_of_lt (List.length_append ▸ Nat.le_add_left _ _) h)
  | vector t ih => exact decodes_getVector t.encode_pos (sticky_get pdu t) ih h
  | map k t ihk iht => exact decodes_getMap k.encode_pos (sticky_get pdu k) (sticky_get pdu t) ihk iht h

theorem sticky_getArgs (types : List Ty) : (input pdu).Sticky (getArgs types) := by
  induction types with
  | nil => exact Input.sticky_pure _
  | cons t rest ih => exact (sticky_get pdu t).bind fun _ => ih.bind fun _ => Input.sticky_pure _

theorem decodes_getArgs {args : List Arg} (h : (encodeArgs args).length < 2 ^ 31) :
    (input pdu).Decodes (getArgs (args.map Sigma.fst)) (encodeArgs args) args := by
  induction args with
  | nil => exact Input.decodes_pure []
  | cons arg args ih =>
      obtain ⟨t, v⟩ := arg
      have hlen : (t.encode v).length + (encodeArgs args).length < 2 ^ 31 := by
        rwa [encodeArgs, List.flatMap_cons, List.length_append] at h
      refine (decodes_get pdu t v (by omega)).bind ((ih (by omega)).map fun rest => ⟨t, v⟩ :: rest) fun _ => ?_
      exact (sticky_getArgs pdu _).bind fun _ => Input.sticky_pure _

end Values

section Frame

variable {pdu : Bytes}

-- The header is read behind the size, and the cursor goes on to the end of the header's room.
theorem behindSize_run {α : Type} {body : Get α} {code size rest : Bytes} {value : α}
    (h : (input pdu).Decodes body code value) (hsize : size.length = SIZE_SZ) (hpdu : pdu = size ++ (code ++ rest))
    (hfits : pdu.length < 2 ^ 31) :
    behindSize body ⟨pdu, 0, true, hfits⟩ = some (value, ⟨pdu, RPC_HEADER_SZ, true, hfits⟩) := by
  have hlive : (input pdu).live ⟨pdu, SIZE_SZ, true, hfits⟩ := by
    refine ⟨rfl, rfl, ?_⟩
    show SIZE_SZ ≤ pdu.length
    rw [hpdu, List.length_append, hsize]
    exact Nat.le_add_right _ _
  have hleft : (input pdu).left ⟨pdu, SIZE_SZ, true, hfits⟩ = code ++ rest := by
    show pdu.drop SIZE_SZ = code ++ rest
    rw [hpdu, List.drop_left' hsize]
  obtain ⟨⟨buf, ind, ok, hbuf⟩, hbody, ⟨rfl, rfl, -⟩, -⟩ := h.full _ rest hlive hleft
  show (body ⟨buf, SIZE_SZ, true, hfits⟩).bind _ = _
  rw [hbody]
  rfl

theorem decodes_unpack (x : Int32) : (input pdu).Decodes unpack (netBytes x.toUInt32) x := decodes_getInt pdu x

theorem unpackHeader_run {header : Header} {size rest : Bytes} (hsize : size.length = SIZE_SZ)
    (hpdu : pdu = size ++ (header.encode ++ rest)) (hfits : pdu.length < 2 ^ 31) :
    unpackHeader header.kind ⟨pdu, 0, true, hfits⟩ = some (header, ⟨pdu, RPC_HEADER_SZ, true, hfits⟩) := by
  have hsticky : (input pdu).Sticky unpack := sticky_getInt pdu
  cases header with
  | req h =>
      have hbody : unpackReqHeader ⟨pdu, 0, true, hfits⟩ = some (h, ⟨pdu, RPC_HEADER_SZ, true, hfits⟩) := by
        refine behindSize_run ?_ hsize hpdu hfits
        refine (decodes_unpack h.xid).bind ((decodes_unpack h.proc).bind ((decodes_unpack h.cltNonce.toInt32).bind
          ((decodes_unpack h.srvNonce.toInt32).bind ((decodes_unpack h.xidRep).map _)
            fun _ => ?_) fun _ => ?_) fun _ => ?_) fun _ => ?_
        · exact hsticky.bind fun _ => Input.sticky_pure _
        · exact hsticky.bind fun _ => hsticky.bind fun _ => Input.sticky_pure _
        · exact hsticky.bind fun _ => hsticky.bind fun _ => hsticky.bind fun _ => Input.sticky_pure _
        · exact hsticky.bind fun _ => hsticky.bind fun _ => hsticky.bind fun _ => hsticky.bind fun _ =>
            Input.sticky_pure _
      exact Input.bind_of_eq_some hbody
  | reply h =>
      have hbody : unpackReplyHeader ⟨pdu, 0, true, hfits⟩ = some (h, ⟨pdu, RPC_HEADER_SZ, true, hfits⟩) := by
        refine behindSize_run ?_ hsize hpdu hfits
        refine (decodes_unpack h.xid).bind ((decodes_unpack h.ret).map _) fun _ => ?_
        exact hsticky.bind fun _ => Input.sticky_pure _
      exact Input.bind_of_eq_some hbody

-- A PDU that has the header: what is left to read are the bytes behind it.
theorem received_eq {header : Header} {types : List Ty} {front tail : Bytes} {u : Unmarshall} {args : List Arg}
    (hfront : ∃ size unused : Bytes, size.length = SIZE_SZ ∧ front = size ++ (header.encode ++ unused))
    (hfits : (front ++ tail).length < 2 ^ 31)
    (hargs : getArgs types ⟨front ++ tail, RPC_HEADER_SZ, true, hfits⟩ = some (args, u)) :
    received header.kind types (front ++ tail) hfits = some (header, args, u.okdone) := by
  obtain ⟨size, unused, hsize, hfront⟩ := hfront
  have hpdu : front ++ tail = size ++ (header.encode ++ (unused ++ tail)) := by
    rw [hfront, List.append_assoc, List.append_assoc]
  rw [received, unpackHeader_run hsize hpdu hfits]
  show (getArgs types _).bind _ = _
  rw [hargs]
  rfl

theorem okdone_of_left_nil {u : Unmarshall} (hlive : (input pdu).live u) (hleft : (input pdu).left u = []) :
    u.okdone = true := by
  have hle : u.buf.length ≤ u.ind := List.drop_eq_nil_iff.mp hleft
  have heq : u.ind = u.buf.length := Nat.le_antisymm hlive.2.2 hle
  rw [Unmarshall.okdone, hlive.2.1, heq, Bool.true_and, beq_self_eq_true]

theorem okdone_of_left_ne_nil {u : Unmarshall} (hleft : (input pdu).left u ≠ []) : u.okdone = false := by
  have hne : u.ind ≠ u.buf.length := fun heq => hleft (List.drop_eq_nil_of_le (Nat.le_of_eq heq.symm))
  rw [Unmarshall.okdone, beq_false_of_ne hne, Bool.and_false]

theorem okdone_of_dead {u : Unmarshall} (hdead : (input pdu).dead u) : u.okdone = false := by
  rw [Unmarshall.okdone, hdead.2, Bool.false_and]

theorem live_behind_header {front tail : Bytes} (hlen : front.length = RPC_HEADER_SZ)
    (hfits : (front ++ tail).length < 2 ^ 31) :
    (input (front ++ tail)).live ⟨front ++ tail, RPC_HEADER_SZ, true, hfits⟩ ∧
      (input (front ++ tail)).left ⟨front ++ tail, RPC_HEADER_SZ, true, hfits⟩ = tail := by
  refine ⟨⟨rfl, rfl, ?_⟩, List.drop_left' hlen⟩
  show RPC_HEADER_SZ ≤ (front ++ tail).length
  rw [List.length_append, hlen]
  exact Nat.le_add_right _ _

-- Every value comes back, and no byte may be missing or left over.
theorem wire_exact (junk : Nat → UInt8) (header : Header) (args : List Arg) (size : UInt32)
    (h : (encodeArgs args).length < MAX_PDU) :
    ∃ (pdu : Bytes) (hfits : pdu.length < 2 ^ 31), sent junk header args size = some pdu ∧
      received header.kind (args.map Sigma.fst) pdu hfits = some (header, args, true) ∧
      (∀ short more, short ++ more = pdu → more ≠ [] → RPC_HEADER_SZ ≤ short.length → ∀ hshort,
        ∃ args', received header.kind (args.map Sigma.fst) short hshort = some (header, args', false)) ∧
      ∀ more, more ≠ [] → ∀ hlong,
        ∃ args', received header.kind (args.map Sigma.fst) (pdu ++ more) hlong = some (header, args', false) := by
  obtain ⟨unused, hunused, hsent⟩ := sent_eq junk header args size h
  have hsize : (netBytes size).length = SIZE_SZ := rfl
  obtain ⟨front, hfront⟩ : ∃ front, front = netBytes size ++ (header.encode ++ unused) := ⟨_, rfl⟩
  have hlen : front.length = RPC_HEADER_SZ := by
    rw [hfront, List.length_append, List.length_append, hsize, ← Nat.add_assoc, hunused]
  have hsmall : (encodeArgs args).length < 2 ^ 31 := h.trans (by decide)
  have hheader : ∃ size unused : Bytes, size.length = SIZE_SZ ∧ front = size ++ (header.encode ++ unused) :=
    ⟨_, _, hsize, hfront⟩
  rw [← List.append_assoc, ← List.append_assoc, List.append_assoc (netBytes size), ← hfront] at hsent
  refine ⟨front ++ encodeArgs args, ?_, hsent, ?_, ?_, ?_⟩
  · rw [List.length_append, hlen]
    exact lt_of_lt_of_le (Nat.add_lt_add_left h _) (by decide)
  · generalize_proofs hfits
    obtain ⟨hlive, hleft⟩ := live_behind_header hlen hfits
    obtain ⟨u, hargs, hend, hnil⟩ := (decodes_getArgs _ hsmall).full _ [] hlive (by rw [hleft, List.append_nil])
    rw [received_eq hheader hfits hargs, okdone_of_left_nil hend hnil]
  · intro short more hcut hmore hkept hshort
    -- The cut is behind the header.
    obtain ⟨tail, rfl, htail⟩ : ∃ tail, short = front ++ tail ∧ encodeArgs args = tail ++ more := by
      rcases List.append_eq_append_iff.mp hcut with ⟨tail, hfrontEq, -⟩ | ⟨tail, hshortEq, hargsEq⟩
      · have htail : tail = [] := by
          rw [hfrontEq, List.length_append] at hlen
          exact List.length_eq_zero_iff.mp (by omega)
        rw [htail, List.append_nil] at hfrontEq
        subst hfrontEq
        exact ⟨[], (List.append_nil _).symm, (List.append_cancel_left hcut).symm⟩
      · exact ⟨tail, hshortEq, hargsEq⟩
    obtain ⟨hlive, hleft⟩ := live_behind_header hlen hshort
    obtain ⟨args', u, hargs, hdead⟩ :=
      (decodes_getArgs _ hsmall).short _ more hlive (by rw [hleft, htail]) hmore
    exact ⟨args', by rw [received_eq hheader hshort hargs, okdone_of_dead hdead]⟩
  · intro more hmore hlong
    rw [List.append_assoc] at hlong
    obtain ⟨hlive, hleft⟩ := live_behind_header hlen hlong
    obtain ⟨u, hargs, -, hrest⟩ := (decodes_getArgs _ hsmall).full _ more hlive hleft
    refine ⟨args, ?_⟩
    simp only [List.append_assoc]
    rw [received_eq hheader hlong hargs, okdone_of_left_ne_nil (by rw [hrest]; exact hmore)]

-- The values of testmarshall in rpctest.cc
def testArgs : List Arg :=
  [⟨.int, (12345 : Int32)⟩, ⟨.ull, (1223344455 : UInt64)⟩, ⟨.string, "hallo....".toUTF8.toList⟩]

theorem wire_exact_testmarshall : (encodeArgs testArgs).length < MAX_PDU ∧
    ∃ (pdu : Bytes) (hfits : pdu.length < 2 ^ 31),
      sent (fun _ => 0) (.req ⟨1, 2, 3, 4, 5⟩) testArgs 49 = some pdu ∧
      received .req [.int, .ull, .string] pdu hfits = some (.req ⟨1, 2, 3, 4, 5⟩, testArgs, true) := by
  have hsmall : (encodeArgs testArgs).length < MAX_PDU := by decide +kernel
  obtain ⟨pdu, hfits, hsent, hreceived, -⟩ := wire_exact (fun _ => 0) (.req ⟨1, 2, 3, 4, 5⟩) testArgs 49 hsmall
  exact ⟨hsmall, pdu, hfits, hsent, hreceived⟩

end Frame

end CseLabs.Wire
