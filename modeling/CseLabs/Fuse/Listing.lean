import CseLabs.Fuse.Refines

namespace CseLabs.Fuse

open InodeManager (Bytes Times Fs INODE_NUM T_DIR Kept)
open Directory (Dirent encode)
open ExtentService (System Manager Env Record Keeper Holds Empty fresh diskManager diskRecord emptySystem someEnv)

section Reader

-- What a reader of a reply finds in an entry.
structure Item where
  name : Bytes
  ino : Nat
  off : Nat
  deriving DecidableEq

-- How the receiver of a reply takes the first entry from it, unless the reply ends inside the entry.
structure Reader (lib : Libfuse) where
  item : Bytes → Option (Item × Bytes)
  item_addDirent : ∀ (name rest : Bytes) (ino off : Nat), name.length < 2 ^ 32 → ino < 2 ^ 64 → off < 2 ^ 64 →
    item (lib.addDirent name ino off ++ rest) = some (⟨name, ino, off⟩, rest)
  item_of_short : ∀ (name rest : Bytes) (ino off size : Nat), name.length < 2 ^ 32 →
    size < lib.direntSize name.length → item ((lib.addDirent name ino off ++ rest).take size) = none
  direntSize_pos : ∀ namelen, 0 < lib.direntSize namelen
  direntSize_le : ∀ namelen, lib.direntSize namelen ≤ namelen + 256

variable {lib : Libfuse} (reader : Reader lib)

def Reader.items : Nat → Bytes → List Item
  | 0, _ => []
  | fuel + 1, buf =>
      match reader.item buf with
      | none => []
      | some (i, rest) => i :: Reader.items fuel rest

-- A directory is read from off on, and again behind the last whole entry, until there is none.
def Reader.readAll {σ : Type} {n : Nat} (m : Manager σ) (env : Env) (c : Fin n) (ino size : Nat) :
    Nat → System σ n → Nat → Option (List Item × System σ n)
  | 0, _, _ => none
  | reads + 1, s, off =>
      match fuseserverReaddir lib m env s c ino size off with
      | some (.buf buf, s) =>
          match (reader.items buf.length buf).getLast? with
          | none => some ([], s)
          | some last => (Reader.readAll m env c ino size reads s last.off).map fun out =>
              (reader.items buf.length buf ++ out.1, out.2)
      | _ => none

theorem Reader.item_nil : reader.item [] = none :=
  reader.item_of_short [] [] 0 0 0 (by decide) (reader.direntSize_pos _)

end Reader

section Pages

variable (lib : Libfuse)

-- The entries from position b of the buffer on.
def listed (b : Nat) : List Dirent → Bytes
  | [] => []
  | e :: entries =>
      lib.addDirent e.name e.inum (b + lib.direntSize e.name.length) ++
        listed (b + lib.direntSize e.name.length) entries

def itemsOf (b : Nat) : List Dirent → List Item
  | [] => []
  | e :: entries =>
      ⟨e.name, e.inum, b + lib.direntSize e.name.length⟩ :: itemsOf (b + lib.direntSize e.name.length) entries

def behind (b : Nat) : List Dirent → Nat
  | [] => b
  | e :: entries => behind (b + lib.direntSize e.name.length) entries

-- The entries that are whole in the first size bytes.
def whole (size : Nat) : List Dirent → List Dirent
  | [] => []
  | e :: entries =>
      if lib.direntSize e.name.length ≤ size then e :: whole (size - lib.direntSize e.name.length) entries else []

-- The numbers of an entry fit into their fields.
def Writable (e : Dirent) : Prop := 0 ∉ e.name ∧ e.name.length < 2 ^ 32 ∧ e.inum < 2 ^ 64

variable {lib} {entries before after : List Dirent} {b size : Nat}

theorem foldl_dirbufAdd (h : ∀ e ∈ entries, Writable e) (buf : Bytes) :
    entries.foldl (fun b e => dirbufAdd lib b (cstr e.name) e.inum) buf = buf ++ listed lib buf.length entries := by
  induction entries generalizing buf with
  | nil => exact (List.append_nil buf).symm
  | cons e entries ih =>
      rw [List.foldl_cons, ih fun d hd => h d (List.mem_cons_of_mem e hd), dirbufAdd,
        cstr_eq (h e List.mem_cons_self).1, List.length_append, lib.length_addDirent, List.append_assoc]
      rfl

theorem dirbuf_eq (h : ∀ e ∈ entries, Writable e) : dirbuf lib entries = listed lib 0 entries := foldl_dirbufAdd h []

theorem listed_append :
    listed lib b (before ++ after) = listed lib b before ++ listed lib (behind lib b before) after := by
  induction before generalizing b with
  | nil => rfl
  | cons e before ih => rw [List.cons_append, listed, ih, listed, List.append_assoc, behind]

theorem itemsOf_append :
    itemsOf lib b (before ++ after) = itemsOf lib b before ++ itemsOf lib (behind lib b before) after := by
  induction before generalizing b with
  | nil => rfl
  | cons e before ih => rw [List.cons_append, itemsOf, ih, itemsOf, List.cons_append, behind]

theorem behind_append : behind lib b (before ++ after) = behind lib (behind lib b before) after := by
  induction before generalizing b with
  | nil => rfl
  | cons e before ih => rw [List.cons_append, behind, ih, behind]

theorem length_listed : b + (listed lib b entries).length = behind lib b entries := by
  induction entries generalizing b with
  | nil => rfl
  | cons e entries ih => rw [listed, List.length_append, lib.length_addDirent, ← Nat.add_assoc, ih, behind]

theorem le_behind (lib : Libfuse) : b ≤ behind lib b entries := by
  rw [← length_listed]
  exact Nat.le_add_right ..

-- The last entry carries the position behind it.
theorem getLast_itemsOf : (itemsOf lib b entries).getLast?.map Item.off = if entries = [] then none else
    some (behind lib b entries) := by
  induction entries generalizing b with
  | nil => rfl
  | cons e entries ih =>
      rw [itemsOf, List.getLast?_cons, behind, if_neg (List.cons_ne_nil e entries)]
      have hrest := ih (b := b + lib.direntSize e.name.length)
      cases entries with
      | nil => rfl
      | cons d entries =>
          rw [if_neg (List.cons_ne_nil d entries)] at hrest
          obtain ⟨last, hlast, hoff⟩ := Option.map_eq_some_iff.mp hrest
          rw [hlast, Option.getD_some, Option.map_some, hoff]

theorem whole_append (lib : Libfuse) (size : Nat) (entries : List Dirent) :
    ∃ after, entries = whole lib size entries ++ after := by
  induction entries generalizing size with
  | nil => exact ⟨[], rfl⟩
  | cons e entries ih =>
      rw [whole]
      split
      · obtain ⟨after, hafter⟩ := ih (size - lib.direntSize e.name.length)
        exact ⟨after, congrArg (e :: ·) hafter⟩
      · exact ⟨e :: entries, rfl⟩

-- A reader of the first size bytes finds the entries that are whole in them.
theorem Reader.items_take (reader : Reader lib) {fuel : Nat} (h : ∀ e ∈ entries, Writable e) (hoff : behind lib b entries < 2 ^ 64)
    (hfuel : ((listed lib b entries).take size).length ≤ fuel) :
    reader.items fuel ((listed lib b entries).take size) = itemsOf lib b (whole lib size entries) := by
  induction entries generalizing b size fuel with
  | nil =>
      rw [listed, List.take_nil]
      cases fuel with
      | zero => rfl
      | succ fuel =>
          rw [items, reader.item_nil]
          rfl
  | cons e entries ih =>
      obtain ⟨-, hname, hinum⟩ := h e List.mem_cons_self
      have hlen := lib.length_addDirent e.name e.inum (b + lib.direntSize e.name.length)
      rw [listed] at hfuel ⊢
      rw [whole]
      split
      · next hfits =>
          have hnext : b + lib.direntSize e.name.length < 2 ^ 64 := (le_behind lib).trans_lt hoff
          have htake : (lib.addDirent e.name e.inum (b + lib.direntSize e.name.length) ++
              listed lib (b + lib.direntSize e.name.length) entries).take size =
              lib.addDirent e.name e.inum (b + lib.direntSize e.name.length) ++
                (listed lib (b + lib.direntSize e.name.length) entries).take (size - lib.direntSize e.name.length) := by
            rw [List.take_append, hlen, List.take_of_length_le (hlen.trans_le hfits)]
          have hpos := reader.direntSize_pos e.name.length
          rw [htake, List.length_append, hlen] at hfuel
          cases fuel with
          | zero => omega
          | succ fuel =>
              rw [htake, items, reader.item_addDirent _ _ _ _ hname hinum hnext, itemsOf]
              exact congrArg _ (ih (fun d hd => h d (List.mem_cons_of_mem e hd)) hoff (by omega))
      · next hlong =>
          cases fuel with
          | zero => rfl
          | succ fuel =>
              rw [items, reader.item_of_short _ _ _ _ _ hname (Nat.lt_of_not_le hlong)]
              rfl

theorem replyBufLimited_eq (buf : Bytes) (off size : Nat) :
    replyBufLimited buf off size = (buf.drop off).take size := by
  rw [replyBufLimited]
  split
  · rw [← List.length_drop, Nat.min_comm, ← List.take_take, List.take_length]
  · next hend => rw [List.drop_eq_nil_of_le (Nat.le_of_not_lt hend), List.take_nil]

end Pages

section Directories

variable {σ : Type} {n : Nat} {m : Manager σ} {record : σ → Nat → Record} {ok : σ → Prop} {s : System σ n} {t : Tree}
  {ino size : Nat} {lib : Libfuse} (reader : Reader lib)

include reader in
theorem behind_le (b : Nat) (entries : List Dirent) : behind lib b entries ≤ b + 128 * (encode entries).length := by
  induction entries generalizing b with
  | nil => exact Nat.le_add_right ..
  | cons e entries ih =>
      have hrest := ih (b + lib.direntSize e.name.length)
      have hsize := reader.direntSize_le e.name.length
      rw [behind, Directory.encode_cons]
      simp only [List.length_append, List.length_cons]
      omega

theorem Tree.Ok.length_encode (ht : t.Ok) (hdir : t.Is ino T_DIR) : (encode (t.entries ino)).length ≤ LIMIT := by
  rw [← (record_dir hdir).1]
  exact ht.fits.content (ht.bound ino hdir.ne_none)

theorem Tree.Ok.writable (ht : t.Ok) (hdir : t.Is ino T_DIR) : ∀ e ∈ t.entries ino, Writable e := by
  intro e he
  refine ⟨(ht.proper ino e he).2.2.2, ?_, (ht.lt (ht.live ino e he).1).trans (by decide)⟩
  obtain ⟨front, back, hsplit⟩ := List.append_of_mem he
  have hlen := ht.length_encode hdir
  rw [hsplit, Directory.encode_append, Directory.encode_cons] at hlen
  simp only [List.length_append] at hlen
  exact (show e.name.length ≤ LIMIT by omega).trans_lt (by decide)

include reader in
theorem Tree.Ok.behind_lt (ht : t.Ok) (hdir : t.Is ino T_DIR) : behind lib 0 (t.entries ino) < 2 ^ 64 := by
  have hlen := ht.length_encode hdir
  have hle := behind_le reader 0 (t.entries ino)
  exact (show behind lib 0 (t.entries ino) ≤ 128 * LIMIT by omega).trans_lt (by decide)

-- One read behind the entries before.
theorem Tree.Ok.readdir {before after : List Dirent} (ht : t.Ok) (hdir : t.Is ino T_DIR)
    (hsplit : t.entries ino = before ++ after) (lib : Libfuse) (size : Nat) :
    t.readdir lib ino size (behind lib 0 before) = .buf ((listed lib (behind lib 0 before) after).take size) := by
  obtain ⟨times, hnode⟩ := hdir.dir
  have hlen : (listed lib 0 before).length = behind lib 0 before := by rw [← length_listed, Nat.zero_add]
  rw [Tree.readdir, hnode]
  show Reply.buf (replyBufLimited (dirbuf lib (t.entries ino)) (behind lib 0 before) size) = _
  rw [dirbuf_eq (ht.writable hdir), replyBufLimited_eq, hsplit, listed_append, List.drop_left' hlen]

-- The entries that are left are those behind the last offset.
theorem readAll_shows {reads : Nat} {before after : List Dirent} (hs : Holds record ok s t.record fresh) (ht : t.Ok)
    (m : Manager σ) (env : Env) (c : Fin n) (hdir : t.Is ino T_DIR) (hsplit : t.entries ino = before ++ after)
    (hsize : ∀ e ∈ after, lib.direntSize e.name.length ≤ size) (hreads : after.length < reads) :
    ∃ s', reader.readAll m env c ino size reads s (behind lib 0 before) = some (itemsOf lib (behind lib 0 before) after, s') := by
  induction reads generalizing s before after with
  | zero => omega
  | succ reads ih =>
      obtain ⟨s₁, hread, hs₁⟩ := readdir_shows hs ht lib m env c hdir.ne_none size (behind lib 0 before)
      have hwritable : ∀ e ∈ after, Writable e := by
        intro e he
        refine ht.writable hdir e ?_
        rw [hsplit]
        exact List.mem_append_right before he
      have hoff := ht.behind_lt reader hdir
      rw [hsplit, behind_append] at hoff
      have hitems := reader.items_take hwritable hoff (Nat.le_refl ((listed lib (behind lib 0 before) after).take size).length)
      have hlast : (itemsOf lib (behind lib 0 before) (whole lib size after)).getLast?.map Item.off = _ := getLast_itemsOf
      rw [ht.readdir hdir hsplit lib] at hread
      simp only [Reader.readAll, hread, hitems]
      cases after with
      | nil => exact ⟨s₁, rfl⟩
      | cons e after =>
          obtain ⟨rest, hrest⟩ := whole_append lib size (e :: after)
          have hne : whole lib size (e :: after) ≠ [] := by
            rw [whole, if_pos (hsize e List.mem_cons_self)]
            exact List.cons_ne_nil e _
          rw [if_neg hne] at hlast
          obtain ⟨last, hget, hoff⟩ := Option.map_eq_some_iff.mp hlast
          have hshort : rest.length < reads := by
            have hlen := congrArg List.length hrest
            have hpos := List.length_pos_of_ne_nil hne
            rw [List.length_append] at hlen
            omega
          have hfits : ∀ d ∈ rest, lib.direntSize d.name.length ≤ size := by
            intro d hd
            refine hsize d ?_
            rw [hrest]
            exact List.mem_append_right _ hd
          rw [← behind_append] at hoff
          rw [hrest, ← List.append_assoc] at hsplit
          obtain ⟨s', hall⟩ := ih hs₁ hsplit hfits hshort
          refine ⟨s', ?_⟩
          rw [hget]
          simp only [hoff, hall, Option.map_some]
          rw [behind_append, ← itemsOf_append, ← hrest]

theorem map_itemsOf (lib : Libfuse) (b : Nat) (entries : List Dirent) :
    (itemsOf lib b entries).map (fun i => ⟨i.name, i.ino⟩) = entries := by
  induction entries generalizing b with
  | nil => rfl
  | cons e entries ih => rw [itemsOf, List.map_cons, ih]

-- A client that reads a directory in pieces finds each entry once, wherever the pieces end.
theorem listing_complete {s : System Fs n} (hempty : Empty s) (hdisk : InodeManager.Initial s.server.im) (env : Env)
    (c : Fin n) {events : List (Event n)} (hallows : (newTree env.now).Allows lib events)
    (hdir : ((newTree env.now).run lib events).2.Is ino T_DIR)
    (hsize : ∀ e ∈ ((newTree env.now).run lib events).2.entries ino, lib.direntSize e.name.length ≤ size) (d : Fin n) :
    ∃ replies s₁ found s₂, run lib diskManager s (.start env c :: events) = some (replies, s₁) ∧
      reader.readAll diskManager env d ino size ((((newTree env.now).run lib events).2.entries ino).length + 1) s₁ 0 =
        some (found, s₂) ∧
      found.map (fun i => ⟨i.name, i.ino⟩) = ((newTree env.now).run lib events).2.entries ino := by
  obtain ⟨s₁, hrun, hs₁, hok⟩ := start_shows hempty hdisk env c hallows
  obtain ⟨s₂, hall⟩ := readAll_shows reader hs₁ hok diskManager env d hdir (List.nil_append _).symm hsize (Nat.lt_succ_self _)
  exact ⟨_, s₁, _, s₂, hrun, hall, map_itemsOf lib 0 _⟩

def value (bytes : Bytes) : Nat := bytes.foldr (fun b v => b.toNat + 256 * v) 0

theorem numeral_succ (width v : Nat) : numeral (width + 1) v = digit v 0 :: numeral width (v / 256) := by
  simp [numeral, List.range_succ_eq_map, digit, Nat.pow_succ', Nat.div_div_eq_div_mul]

theorem value_numeral {width v : Nat} (h : v < 256 ^ width) : value (numeral width v) = v := by
  induction width generalizing v with
  | zero =>
      have hv : v = 0 := by simpa using h
      rw [hv]
      rfl
  | succ width ih =>
      have hdiv : v / 256 < 256 ^ width := by
        rw [Nat.pow_succ'] at h
        exact Nat.div_lt_of_lt_mul h
      have hcons : value (numeral (width + 1) v) = (digit v 0).toNat + 256 * value (numeral width (v / 256)) := by
        rw [numeral_succ]
        rfl
      rw [hcons, ih hdiv, Block.toNat_digit]
      omega

def unpack (buf : Bytes) : Option (Item × Bytes) :=
  let namelen := value ((buf.drop 16).take 8)
  if 24 ≤ buf.length ∧ padded namelen ≤ buf.length then
    some (⟨(buf.drop 24).take namelen, value (buf.take 8), value ((buf.drop 8).take 8)⟩, buf.drop (padded namelen))
  else none

-- The length of the name stands behind the two other numbers.
theorem namelen_packedEntry (name : Bytes) (ino off : Nat) (rest : Bytes) :
    ((packedEntry name ino off ++ rest).drop 16).take 8 = numeral 8 name.length := by
  have hdrop : (packedEntry name ino off ++ rest).drop 16 = numeral 8 name.length ++ (name ++
      (List.replicate (padded name.length - (24 + name.length)) 0 ++ rest)) := by
    simp only [packedEntry, List.append_assoc]
    rw [← List.append_assoc (numeral 8 ino)]
    exact List.drop_left' (by simp [length_numeral])
  rw [hdrop]
  exact List.take_left' (length_numeral ..)

theorem unpack_packedEntry {name : Bytes} {ino off : Nat} (rest : Bytes) (hname : name.length < 2 ^ 64)
    (hino : ino < 2 ^ 64) (hoff : off < 2 ^ 64) :
    unpack (packedEntry name ino off ++ rest) = some (⟨name, ino, off⟩, rest) := by
  have hlen := length_packedEntry name ino off
  have hge := (padded_ge name.length).1
  have hvalue : value (((packedEntry name ino off ++ rest).drop 16).take 8) = name.length := by
    rw [namelen_packedEntry, value_numeral (hname.trans_eq (by decide))]
  have hino : value ((packedEntry name ino off ++ rest).take 8) = ino := by
    simp only [packedEntry, List.append_assoc]
    rw [List.take_left' (length_numeral ..), value_numeral (hino.trans_eq (by decide))]
  have hoff : value (((packedEntry name ino off ++ rest).drop 8).take 8) = off := by
    simp only [packedEntry, List.append_assoc]
    rw [List.drop_left' (length_numeral ..), List.take_left' (length_numeral ..),
      value_numeral (hoff.trans_eq (by decide))]
  have htext : ((packedEntry name ino off ++ rest).drop 24).take name.length = name := by
    have hfront : (numeral 8 ino ++ numeral 8 off ++ numeral 8 name.length).length = 24 := by simp [length_numeral]
    rw [packedEntry, List.append_assoc, List.append_assoc, List.drop_left' hfront, List.take_left' rfl]
  rw [unpack, hvalue, hino, hoff, htext, if_pos, List.drop_left' hlen]
  rw [List.length_append, hlen]
  omega

theorem unpack_of_short {name : Bytes} {ino off size : Nat} (rest : Bytes) (hname : name.length < 2 ^ 64)
    (hsize : size < padded name.length) : unpack ((packedEntry name ino off ++ rest).take size) = none := by
  rw [unpack, if_neg]
  rintro ⟨hfront, hwhole⟩
  have hlen := List.length_take_le size (packedEntry name ino off ++ rest)
  rw [List.drop_take, List.take_take, Nat.min_eq_left (by omega), namelen_packedEntry,
    value_numeral (hname.trans_eq (by decide))] at hwhole
  omega

def unpacker : Reader packed where
  item := unpack
  item_addDirent name rest ino off hname := unpack_packedEntry rest (hname.trans (by decide))
  item_of_short name rest ino off size hname := unpack_of_short rest (hname.trans (by decide))
  direntSize_pos namelen := (Nat.le_add_right_of_le (by decide : 1 ≤ 24)).trans (padded_ge namelen).1
  direntSize_le namelen := (padded_ge namelen).2.trans (Nat.add_le_add_left (by decide) namelen)

-- A piece holds one entry.
theorem listing_complete_two : ∃ replies s₁ found s₂,
    run packed diskManager (emptySystem 2) [.start someEnv 0, .request someEnv 0 0 (.mkdir 1 [100]),
      .request someEnv 0 0 (.create 1 [97, 98])] = some (replies, s₁) ∧
    unpacker.readAll diskManager someEnv 1 1 32 3 s₁ 0 = some (found, s₂) ∧
    found.map (fun i => ⟨i.name, i.ino⟩) = ([⟨[100], 2⟩, ⟨[97, 98], 3⟩] : List Dirent) :=
  listing_complete unpacker (ExtentService.empty_emptySystem 2) InodeManager.initial_startFs someEnv 0
    (by decide +kernel) (by decide +kernel) (by decide +kernel) 1

end Directories

end CseLabs.Fuse
