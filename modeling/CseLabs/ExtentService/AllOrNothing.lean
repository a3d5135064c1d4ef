import CseLabs.ExtentService.Transparent
import CseLabs.InodeManager.Failing
import CseLabs.InodeManager.Theorems

namespace CseLabs.ExtentService

open InodeManager (Bytes Fs Whole OthersKept Sound INODE_NUM MAXFILE BLOCK_SIZE)

section Put

variable {n : Nat}

-- put says OK and get then gives what was put, or it says something else and the file reads as
-- before. Nothing else of the store changes.
def AllOrNothing (env : Env) (s : System Fs n) (c : Fin n) (id : Nat) (buf : Bytes) : Prop :=
  ∃ reply s', s.handle diskManager env c (.put id buf) = some (reply, s') ∧
    (reply = .ok ∧ (∀ d, (s'.get d id).1 = buf) ∨
      reply ≠ .ok ∧ ∀ stack content, InodeManager.readFile stack id s.server.im = .ok content s.server.im →
        InodeManager.readFile stack id s'.server.im = .ok content s'.server.im) ∧
    OthersKept s.server.im s'.server.im id

variable {s s' : System Fs n} {env : Env} {c : Fin n} {id len : Nat} {buf : Bytes}

theorem writeFile_disk (hid : id < INODE_NUM) (hbuf : buf.length < 2 ^ 31) :
    s.writeFile diskManager env id buf =
      (result (InodeManager.writeFile env.junk env.now id buf s.server.im)).map fun r => s.setIm r.2 := by
  have hmod : id % 2 ^ 32 = id := Nat.mod_eq_of_lt (hid.trans (by decide))
  have hwrite : diskManager.writeFile env id buf (toInt buf.length) s.server.im =
      (result (InodeManager.writeFile env.junk env.now id buf s.server.im)).map Prod.snd := by
    simp only [diskManager, toInt_of_lt hbuf]
    rw [if_neg (by omega), Int.toNat_natCast, List.take_length]
  rw [System.writeFile, hmod, hwrite]
  cases result (InodeManager.writeFile env.junk env.now id buf s.server.im) <;> rfl

theorem updateCache_disk {content : Bytes} (hid : id < INODE_NUM)
    (hread : InodeManager.readFile env.junk id s.server.im = .ok (some content) s.server.im) :
    ∃ s', s.updateCache diskManager env id = some s' ∧ s'.server.im = s.server.im ∧ s'.server.dataCache id = content := by
  have hdisk : diskManager.readFile env id s.server.im = some (some content) := by
    show (result (InodeManager.readFile env.junk id s.server.im)).map Prod.fst = _
    rw [hread]
    rfl
  obtain ⟨attr, hattr⟩ : ∃ attr, diskManager.getattr id {} s.server.im = some attr := by
    show ∃ attr, (result (InodeManager.getattr id {} s.server.im)).map Prod.fst = some attr
    rw [InodeManager.getattr_run hid]
    exact ⟨_, rfl⟩
  simp only [System.updateCache, mask_of_lt (hid.trans (by decide)), hdisk, hattr, Option.bind_eq_bind, Option.bind_some,
    broadcast_eq]
  exact ⟨_, rfl, rfl, Function.update_self ..⟩

theorem updateCache_disk_eq_some (hid : id < INODE_NUM) (hrun : s.updateCache diskManager env id = some s') :
    s'.server.im = s.server.im ∧
      InodeManager.readFile env.junk id s.server.im = .ok (some (s'.server.dataCache id)) s.server.im := by
  have hmask := mask_of_lt (hid.trans (by decide))
  cases hread : InodeManager.readFile env.junk id s.server.im with
  | error e im =>
      have hdisk : diskManager.readFile env id s.server.im = none := by
        show (result (InodeManager.readFile env.junk id s.server.im)).map Prod.fst = _
        rw [hread]
        rfl
      simp only [System.updateCache, hmask, hdisk, Option.bind_eq_bind, Option.bind_none] at hrun
      cases hrun
  | ok found im =>
      obtain rfl := InodeManager.readFile_onlyReads _ _ _ _ _ hread
      cases found with
      | none => exact absurd hread (InodeManager.readFile_ne_none hid)
      | some content =>
          obtain ⟨s₁, hupdate, him, hdata⟩ := updateCache_disk hid hread
          rw [hrun] at hupdate
          cases hupdate
          exact ⟨him, by rw [hdata]⟩

-- put has no other answer than OK.
theorem AllOrNothing.get (h : AllOrNothing env s c id buf) :
    ∃ s', s.put diskManager env c id buf = some s' ∧ (s'.get c id).1 = buf := by
  obtain ⟨reply, s', hrun, hreply, -⟩ := h
  obtain ⟨s₁, hput, hdone⟩ := Option.bind_eq_some_iff.mp hrun
  cases hdone
  refine ⟨s', hput, ?_⟩
  rcases hreply with ⟨-, hget⟩ | ⟨hreply, -⟩
  · exact hget c
  · exact absurd rfl hreply

-- Within the range of an int, put does what write_file does.
theorem allOrNothing_iff_whole (hid : id < INODE_NUM) (hbuf : buf.length < 2 ^ 31) :
    AllOrNothing env s c id buf ↔ Whole env.junk env.now s.server.im id buf := by
  have hmask := mask_of_lt (hid.trans (by decide))
  constructor
  · intro h
    obtain ⟨s₃, hput, hget⟩ := h.get
    obtain ⟨reply, s', hrun, -, hkept⟩ := h
    simp only [System.handle, hput, Option.bind_eq_bind, Option.bind_some] at hrun
    cases hrun
    simp only [System.put, hmask, writeFile_disk hid hbuf, Option.bind_eq_bind, Option.bind_eq_some_iff,
      Option.map_eq_some_iff] at hput
    obtain ⟨s₁, ⟨⟨⟨⟩, im⟩, hwrite, rfl⟩, s₂, hupdate, hinsert⟩ := hput
    cases hinsert
    obtain ⟨him, hread⟩ := updateCache_disk_eq_some hid hupdate
    have hget : s₂.server.dataCache id = buf := hget
    have hkept : OthersKept s.server.im s₂.server.im id := hkept
    rw [him] at hkept
    rw [hget] at hread
    exact ⟨im, result_eq_some hwrite, hread, hkept⟩
  · rintro ⟨im, hwrite, hread, hkept⟩
    obtain ⟨s₂, hupdate, him, hdata⟩ := updateCache_disk (s := s.setIm im) hid hread
    refine ⟨.ok, s₂.insert c id, ?_, .inl ⟨rfl, fun d => hdata⟩, ?_⟩
    · simp only [System.handle, System.put, hmask, writeFile_disk hid hbuf, hwrite, result, Option.map_some, hupdate,
        Option.bind_eq_bind, Option.bind_some, pure]
    · show OthersKept s.server.im s₂.server.im id
      rw [him]
      exact hkept

-- What an int does not hold of a buffer's size is not written: two buffers that differ only
-- there leave the server in the same state.
theorem put_congr {buf' : Bytes} (hlen : buf'.length = buf.length)
    (htake : buf'.take (toInt buf.length).toNat = buf.take (toInt buf.length).toNat) :
    s.put diskManager env c id buf' = s.put diskManager env c id buf := by
  have hwrite : ∀ inum im, diskManager.writeFile env inum buf' (toInt buf.length) im =
      diskManager.writeFile env inum buf (toInt buf.length) im := by
    intro inum im
    simp only [diskManager, htake]
  simp only [System.put, System.writeFile, hlen, hwrite]

theorem length_of_allOrNothing (h : ∀ env buf, buf.length = len → AllOrNothing env s c id buf) :
    len < 2 ^ 31 := by
  by_contra hge
  -- the size that write_file gets is less than the length
  have hsize : (toInt len).toNat < len := by
    have hlt := (BitVec.ofNat 32 len).isLt
    rw [toInt, BitVec.toInt_eq_toNat_cond]
    split <;> omega
  let buf : Bytes := List.replicate (len - 1) 0
  have hlen : ∀ b, (buf ++ [b]).length = len := by
    intro b
    rw [List.length_append, List.length_replicate, List.length_singleton]
    omega
  have htake : ∀ b, (buf ++ [b]).take (toInt len).toNat = buf.take (toInt len).toNat := by
    intro b
    exact List.take_append_of_le_length (by rw [List.length_replicate]; omega)
  have hput : s.put diskManager someEnv c id (buf ++ [0]) = s.put diskManager someEnv c id (buf ++ [1]) := by
    refine put_congr (by rw [hlen, hlen]) ?_
    rw [hlen, htake, htake]
  obtain ⟨s₀, hrun₀, hget₀⟩ := (h someEnv (buf ++ [0]) (hlen 0)).get
  obtain ⟨s₁, hrun₁, hget₁⟩ := (h someEnv (buf ++ [1]) (hlen 1)).get
  rw [hput, hrun₁] at hrun₀
  cases hrun₀
  have hlast := List.append_cancel_left (hget₀.symm.trans hget₁)
  cases hlast

-- Every put of a given length is all or nothing if and only if the store has room for a file of
-- that length.
theorem put_all_or_nothing (s : System Fs n) (c : Fin n) (h : Sound s.server.im) (hid : id < INODE_NUM) :
    (∀ env buf, buf.length = len → AllOrNothing env s c id buf) ↔ s.server.im.Fits id len := by
  have hlimit : MAXFILE * BLOCK_SIZE < 2 ^ 31 := by decide
  rw [← InodeManager.whole_iff_fits h hid]
  constructor
  · rintro hall junk now buf rfl
    exact (allOrNothing_iff_whole hid (length_of_allOrNothing hall)).mp (hall ⟨junk, now⟩ buf rfl)
  · rintro hwhole env buf rfl
    have hbuf := (InodeManager.fits_size hwhole).trans hlimit
    exact (allOrNothing_iff_whole hid hbuf).mpr (hwhole env.junk env.now buf rfl)

-- A file of two blocks gets three, beside another one.
theorem put_all_or_nothing_file : ∃ s : System Fs 2, s.server.im.nblocks 2 = 1 ∧ s.server.im.nblocks 3 = 2 ∧
    AllOrNothing someEnv s 1 3 (List.replicate 1100 7) := by
  have hrun : (execute (fun im event => if InodeManager.Legal im event ∧ InodeManager.FreshIndirect im event then
      InodeManager.step im event else none) InodeManager.startFs InodeManager.twoFiles).map
        (fun im => (im.nblocks 2, im.nblocks 3, im.usingBlocks 1038)) = some (1, 2, false) := by
    decide +kernel
  obtain ⟨im, him, hfields⟩ := Option.map_eq_some_iff.mp hrun
  simp only [Prod.mk.injEq] at hfields
  obtain ⟨htwo, hthree, hfree⟩ := hfields
  have hsound : Sound im :=
    InodeManager.reachable_sound (.executed (.start InodeManager.initial_startFs) him)
  have hlength : (List.replicate 1100 (7 : UInt8)).length = 1100 := List.length_replicate
  refine ⟨(emptySystem 2).setIm im, htwo, hthree, (put_all_or_nothing ((emptySystem 2).setIm im) 1 hsound
    (by decide)).mpr ⟨by decide, ?_, fun hstale => absurd hstale.2.1 (by decide)⟩ someEnv _ hlength⟩
  show im.demand 3 _ ≤ _
  rw [InodeManager.Fs.demand, hthree, if_neg fun hnew => absurd hnew.2.1 (by decide)]
  exact List.length_pos_of_mem (InodeManager.mem_freeBlocks.mpr ⟨by decide, by decide, hfree⟩)

-- A new disk with every block marked.
def fullSystem : System Fs 1 :=
  (emptySystem 1).setIm { InodeManager.startFs with usingBlocks := fun _ => true }

theorem fullSystem_sound : Sound fullSystem.server.im := by
  refine InodeManager.sound_of_blank fun inum => ?_
  have hinode : fullSystem.server.im.inode inum = InodeManager.startFs.inode inum := rfl
  rw [hinode]
  exact InodeManager.initial_blank InodeManager.initial_startFs inum

-- put says OK, and the byte is in block 0.
theorem put_overwrites_block : ∃ s : System Fs 1, Sound s.server.im ∧ ¬ AllOrNothing someEnv s 0 1 [7] := by
  refine ⟨fullSystem, fullSystem_sound, ?_⟩
  rintro ⟨reply, s', hrun, -, hkept⟩
  have hbyte : (fullSystem.handle diskManager someEnv 0 (.put 1 [7])).map (fun r => (r.2.server.im.blocks 0).byte 0) =
      some 7 := by
    decide +kernel
  rw [hrun, Option.map_some, hkept.blocks 0 (by decide) (by decide)] at hbyte
  have hbefore : (fullSystem.server.im.blocks 0).byte 0 = 0 := by decide +kernel
  rw [hbefore] at hbyte
  cases hbyte

end Put

end CseLabs.ExtentService
