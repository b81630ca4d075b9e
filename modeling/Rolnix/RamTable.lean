import Rolnix.Ram
import Rolnix.PmmProof
import Rolnix.Lib.InStep

/-!
# The memory manager on bytes

`Ram` and `Machine` differ in where the frame table is. `r.Encodes s` says that the bytes of the
table in `r` are the metadata of `s`, and that both have the same memory elsewhere. A call of the
memory manager is then in step on both (`InStep`): it panics on both, or returns the same on both
and `Encodes` holds again.

The two run the same text, so the proofs follow it. An update of the table on `Ram` is a store into
one `FrameInfo`, which no other `FrameInfo` sees (`setInfo`). A link of a free list is a store into a
frame of the pool, and it is here that the frame table must be apart from the pool (`PoolApart`).
-/

namespace Rolnix

open Machine

/-! ## A `FrameInfo` in memory -/

namespace FrameInfo

/-- The bytes at `a` are those of `info`. -/
structure At (info : FrameInfo) (m : ByteMem) (a : Nat) : Prop where
  owner : m.load (a + Ram.ownerOffset) 8 = info.owner.raw
  mappings : m.load (a + Ram.mappingsOffset) 4 = info.mappings.toNat
  pinned : m.load (a + Ram.pinnedOffset) 4 = info.pinned.toNat
  gen : m.load (a + Ram.genOffset) 4 = info.gen.toNat

variable {info : FrameInfo} {m m' : ByteMem} {a : Nat}

theorem At.congr (h : info.At m a) (heq : ∀ x, a ≤ x → x < a + size → m' x = m x) :
    info.At m' a := by
  have hload : ∀ o n, o + n ≤ size → m'.load (a + o) n = m.load (a + o) n := by
    intro o n hle
    apply ByteMem.load_congr
    intro x hge hlt
    exact heq x (by omega) (by omega)
  exact {
    owner := (hload _ _ (by decide)).trans h.owner
    mappings := (hload _ _ (by decide)).trans h.mappings
    pinned := (hload _ _ (by decide)).trans h.pinned
    gen := (hload _ _ (by decide)).trans h.gen }

theorem raw_lt (o : FrameOwner) : o.raw < 256 ^ 8 := by
  have hid : o.id.toNat < 2 ^ 32 := o.id.isLt
  have htag : o.tag.toNat < 256 := by cases o.tag <;> decide
  rw [FrameOwner.raw, FrameOwner.encode]
  refine Nat.or_lt_two_pow (n := 64) (by omega) ?_
  rw [Nat.shiftLeft_eq]
  omega

/-- A word written outside of `[o, o + k)` is not seen there. -/
theorem load_field {o k o' k' v : Nat} (h : o + k ≤ o' ∨ o' + k' ≤ o) :
    (m.store (a + o') k' v).load (a + o) k = m.load (a + o) k :=
  ByteMem.load_store_of_disjoint (by omega)

theorem At.withOwner (h : info.At m a) (o : FrameOwner) :
    (info.withOwner o).At (m.store (a + Ram.ownerOffset) 8 o.raw) a where
  owner := ByteMem.load_store_same_of_lt (raw_lt o)
  mappings := (load_field (by decide)).trans h.mappings
  pinned := (load_field (by decide)).trans h.pinned
  gen := (load_field (by decide)).trans h.gen

theorem load_counter (n : BitVec 32) (o : Nat) :
    (m.store (a + o) 4 n.toNat).load (a + o) 4 = n.toNat :=
  ByteMem.load_store_same_of_lt n.isLt

theorem At.setMappings (h : info.At m a) (n : BitVec 32) :
    At { info with mappings := n } (m.store (a + Ram.mappingsOffset) 4 n.toNat) a where
  owner := (load_field (by decide)).trans h.owner
  mappings := load_counter n _
  pinned := (load_field (by decide)).trans h.pinned
  gen := (load_field (by decide)).trans h.gen

theorem At.setPinned (h : info.At m a) (n : BitVec 32) :
    At { info with pinned := n } (m.store (a + Ram.pinnedOffset) 4 n.toNat) a where
  owner := (load_field (by decide)).trans h.owner
  mappings := (load_field (by decide)).trans h.mappings
  pinned := load_counter n _
  gen := (load_field (by decide)).trans h.gen

theorem At.setGen (h : info.At m a) (n : BitVec 32) :
    At { info with gen := n } (m.store (a + Ram.genOffset) 4 n.toNat) a where
  owner := (load_field (by decide)).trans h.owner
  mappings := (load_field (by decide)).trans h.mappings
  pinned := (load_field (by decide)).trans h.pinned
  gen := load_counter n _

theorem at_zeroed (hzero : ∀ x, a ≤ x → x < a + size → m x = 0) : zeroed.At m a := by
  have hload : ∀ o n, o + n ≤ size → m.load (a + o) n = 0 := by
    intro o n hle
    have hbytes : m.load (a + o) n = 0 % 256 ^ n := by
      apply ByteMem.load_eq_of_bytes
      intro i hi
      rw [hzero _ (by omega) (by omega), Nat.zero_div]
      rfl
    rw [hbytes, Nat.zero_mod]
  exact {
    owner := hload _ _ (by decide)
    mappings := hload _ _ (by decide)
    pinned := hload _ _ (by decide)
    gen := hload _ _ (by decide) }

end FrameInfo

/-! ## The machine that a memory shows -/

namespace Machine

/-- Where the metadata of a frame is in memory. -/
def infoAt (s : Machine) (f : Nat) : Nat := s.tablePhys + f * FrameInfo.size

/-- No byte of the frame is one of the frame table. -/
def Apart (s : Machine) (f : Nat) : Prop := ∀ x, InFrame f x → ¬ s.InTable x

end Machine

/-- What `r` holds is `s`: the metadata that the bytes of the frame table say, and the same memory
elsewhere. -/
structure Ram.Encodes (r : Ram) (s : Machine) : Prop where
  physmapBase : r.physmapBase = s.physmapBase
  tableBase : r.tableBase = s.tableBase
  numFrames : r.numFrames = s.numFrames
  shards : r.shards = s.shards
  global : r.global = s.global
  /-- The frame table does not wrap. -/
  fits : s.tablePhys + s.numFrames * FrameInfo.size ≤ 2 ^ 64
  infos : ∀ f < s.numFrames, (s.frames f).At r.mem (s.infoAt f)
  mem : ∀ x, ¬ s.InTable x → r.mem x = s.mem x
  /-- There is no metadata outside of the table. -/
  beyond : ∀ f, s.numFrames ≤ f → s.frames f = FrameInfo.zeroed

namespace Ram.Encodes

variable {r : Ram} {s : Machine} {f k : Nat}

/-! ### Writes -/

theorem setInfo (h : r.Encodes s) (hf : f < s.numFrames) {m : ByteMem} {info : FrameInfo}
    (hat : info.At m (s.infoAt f))
    (hout : ∀ x, x < s.infoAt f ∨ s.infoAt f + FrameInfo.size ≤ x → m x = r.mem x) :
    Encodes { r with mem := m } (s.setInfo f info) := by
  refine { h with infos := ?_, mem := ?_, beyond := ?_ }
  · intro g hg
    rw [setInfo_frames]
    by_cases hgf : g = f
    · subst hgf
      rw [Function.update_self]
      exact hat
    · rw [Function.update_of_ne hgf]
      -- the metadata of another frame lies elsewhere
      refine (h.infos g hg).congr ?_
      intro x hge hlt
      apply hout
      simp only [infoAt, FrameInfo.size] at hge hlt ⊢
      omega
  · intro x hx
    rw [setInfo_mem, ← h.mem x hx]
    apply hout
    by_contra hcon
    refine hx ?_
    show s.InTable x
    simp only [InTable, infoAt, FrameInfo.size] at hcon ⊢
    omega
  · intro g hg
    have hgf : g ≠ f := by
      rintro rfl
      exact absurd hf (not_lt.2 hg)
    rw [setInfo_frames, Function.update_of_ne hgf]
    exact h.beyond g hg

theorem setMem (h : r.Encodes s) {m m' : ByteMem} (hin : ∀ x, s.InTable x → m x = r.mem x)
    (hout : ∀ x, ¬ s.InTable x → m x = m' x) :
    Encodes { r with mem := m } { s with mem := m' } := by
  refine { h with infos := ?_, mem := hout }
  intro g hg
  refine (h.infos g hg).congr ?_
  intro x hge hlt
  apply hin
  change g < s.numFrames at hg
  change s.infoAt g ≤ x at hge
  change x < s.infoAt g + FrameInfo.size at hlt
  simp only [InTable, infoAt, FrameInfo.size] at hge hlt ⊢
  omega

theorem setShard (h : r.Encodes s) (sh : Shard) :
    Encodes (PoolMem.setShard r k sh) (PoolMem.setShard s k sh) := by
  refine { h with shards := ?_ }
  show Function.update r.shards k sh = Function.update s.shards k sh
  rw [h.shards]

theorem setGlobal (h : r.Encodes s) (sh : Shard) :
    Encodes (PoolMem.setGlobal r sh) (PoolMem.setGlobal s sh) := { h with global := rfl }

/-- A word in a frame apart from the table. -/
theorem storeWord (h : r.Encodes s) (hf : s.Apart f) {a n : Nat} (hge : framePhys f ≤ a)
    (hle : a + n ≤ framePhys f + frameSize) (v : Nat) :
    Encodes { r with mem := r.mem.store a n v } { s with mem := s.mem.store a n v } := by
  apply h.setMem
  · intro x hx
    apply ByteMem.store_of_not_mem
    by_contra hcon
    refine hf x ?_ hx
    simp only [InFrame, framePhys, frameSize] at hcon hge hle ⊢
    omega
  · intro x hx
    simp only [ByteMem.store, h.mem x hx]

theorem setListNext (h : r.Encodes s) (hf : s.Apart f) (next : Nat) :
    Encodes (PoolMem.setListNext r f next) (PoolMem.setListNext s f next) :=
  h.storeWord hf le_rfl (Nat.add_le_add_left (by decide) _) next

/-! ### Reads -/

theorem infoPhys_eq (h : r.Encodes s) : r.infoPhys f = (s.frameInfo f).map fun _ => s.infoAt f := by
  unfold Ram.infoPhys frameInfo
  rw [h.tableBase, h.numFrames, h.physmapBase]
  split_ifs with hbase hf
  · rfl
  · have hlt : s.tablePhys + f * FrameInfo.size < 2 ^ 64 := by
      have hfits := h.fits
      simp only [FrameInfo.size] at hfits ⊢
      omega
    rw [Word.sub_add_comm]
    exact congrArg some (Word.add_of_lt hlt)
  · rfl

theorem lookup (h : r.Encodes s) {α : Type} {g : Nat → α} {g' : FrameInfo → α}
    (heq : ∀ info a, info.At r.mem a → g a = g' info) :
    (r.infoPhys f).map g = (s.frameInfo f).map g' := by
  rw [h.infoPhys_eq, Option.map_map]
  cases hinfo : s.frameInfo f with
  | none => rfl
  | some info =>
      obtain ⟨-, hf, rfl⟩ := frameInfo_eq_some.1 hinfo
      exact congrArg some (heq _ _ (h.infos f hf))

theorem ofNat_toNat {m : ByteMem} {a : Nat} {n : BitVec 32} (h : m.load a 4 = n.toNat) :
    BitVec.ofNat 32 (m.load a 4) = n := by
  rw [h, BitVec.ofNat_toNat, BitVec.setWidth_eq]

theorem owner (h : r.Encodes s) : FrameTable.owner r f = FrameTable.owner s f :=
  h.lookup fun _ _ hat => hat.owner

theorem mappings (h : r.Encodes s) : FrameTable.mappings r f = FrameTable.mappings s f :=
  h.lookup fun _ _ hat => ofNat_toNat hat.mappings

theorem pinned (h : r.Encodes s) : FrameTable.pinned r f = FrameTable.pinned s f :=
  h.lookup fun _ _ hat => ofNat_toNat hat.pinned

theorem gen (h : r.Encodes s) : FrameTable.gen r f = FrameTable.gen s f :=
  h.lookup fun _ _ hat => ofNat_toNat hat.gen

theorem ownerTag (h : r.Encodes s) : FrameTable.ownerTag r f = FrameTable.ownerTag s f := by
  unfold FrameTable.ownerTag
  rw [h.owner]

theorem ownerId (h : r.Encodes s) : FrameTable.ownerId r f = FrameTable.ownerId s f := by
  unfold FrameTable.ownerId
  rw [h.owner]

theorem isFree (h : r.Encodes s) : FrameTable.isFree r f = FrameTable.isFree s f := by
  unfold FrameTable.isFree
  rw [h.ownerTag]

theorem loadWord (h : r.Encodes s) (hf : s.Apart f) {a n : Nat} (hge : framePhys f ≤ a)
    (hle : a + n ≤ framePhys f + frameSize) : r.mem.load a n = s.mem.load a n := by
  apply ByteMem.load_congr
  intro x hax hxa
  apply h.mem
  apply hf
  simp only [InFrame, framePhys, frameSize] at hge hle ⊢
  omega

theorem listNext (h : r.Encodes s) (hf : s.Apart f) :
    PoolMem.listNext r f = PoolMem.listNext s f :=
  h.loadWord hf le_rfl (Nat.add_le_add_left (by decide) _)

theorem poolShards (h : r.Encodes s) : PoolMem.shards r = PoolMem.shards s := h.shards

theorem poolGlobal (h : r.Encodes s) : PoolMem.global r = PoolMem.global s := h.global

/-! ### Updates of the frame table -/

theorem store_outside {m : ByteMem} {a o k v x : Nat} (hle : o + k ≤ FrameInfo.size)
    (hx : x < a ∨ a + FrameInfo.size ≤ x) : m.store (a + o) k v x = m x :=
  ByteMem.store_of_not_mem (by omega)

theorem transition (h : r.Encodes s) (expected : Nat) (new : FrameOwner) :
    InStep Encodes (FrameTable.transition r f expected new)
      (FrameTable.transition s f expected new) := by
  show InStep Encodes (Ram.transition r f expected new) (Machine.transition s f expected new)
  unfold Ram.transition Machine.transition
  rw [h.infoPhys_eq]
  cases hinfo : s.frameInfo f with
  | none => exact .none
  | some info =>
      obtain ⟨-, hf, rfl⟩ := frameInfo_eq_some.1 hinfo
      have hat := h.infos f hf
      simp only [Option.map_some, Option.bind_eq_bind, Option.bind_some, hat.owner,
        FrameInfo.transition]
      split_ifs
      · exact .ret (h.setInfo hf (hat.withOwner new) fun x hx => store_outside (by decide) hx)
      · exact .ret h

theorem updateCounter (h : r.Encodes s) {o : Nat} {g : BitVec 32 → BitVec 32}
    {G : FrameInfo → FrameInfo} {count : FrameInfo → BitVec 32} (ho : o + 4 ≤ FrameInfo.size)
    (hload : ∀ {info m a}, info.At m a → m.load (a + o) 4 = (count info).toNat)
    (hG : ∀ info, count (G info) = g (count info))
    (hstore : ∀ {info m a}, info.At m a →
      (G info).At (m.store (a + o) 4 (count (G info)).toNat) a) :
    InStep Encodes (r.updateCounter o g f) (s.updateCount f G count) := by
  unfold Ram.updateCounter Machine.updateCount
  rw [h.infoPhys_eq]
  cases hinfo : s.frameInfo f with
  | none => exact .none
  | some info =>
      obtain ⟨-, hf, rfl⟩ := frameInfo_eq_some.1 hinfo
      have hat := h.infos f hf
      simp only [Option.map_some, Option.bind_eq_bind, Option.bind_some, ofNat_toNat (hload hat),
        ← hG]
      exact .ret (h.setInfo hf (hstore hat) fun x hx => store_outside ho hx)

theorem pin (h : r.Encodes s) : InStep Encodes (FrameTable.pin r f) (FrameTable.pin s f) :=
  h.updateCounter (by decide) (fun hat => hat.pinned) (fun _ => rfl) fun hat => hat.setPinned _

theorem unpin (h : r.Encodes s) : InStep Encodes (FrameTable.unpin r f) (FrameTable.unpin s f) :=
  h.updateCounter (by decide) (fun hat => hat.pinned) (fun _ => rfl) fun hat => hat.setPinned _

theorem addMapping (h : r.Encodes s) :
    InStep Encodes (FrameTable.addMapping r f) (FrameTable.addMapping s f) :=
  h.updateCounter (by decide) (fun hat => hat.mappings) (fun _ => rfl) fun hat => hat.setMappings _

theorem dropMapping (h : r.Encodes s) :
    InStep Encodes (FrameTable.dropMapping r f) (FrameTable.dropMapping s f) :=
  h.updateCounter (by decide) (fun hat => hat.mappings) (fun _ => rfl) fun hat => hat.setMappings _

theorem bumpGen (h : r.Encodes s) :
    Option.Rel Encodes (FrameTable.bumpGen r f) (FrameTable.bumpGen s f) := by
  have hgen : InStep Encodes (r.updateCounter Ram.genOffset (· + 1) f)
      (s.updateCount f FrameInfo.bumpGen FrameInfo.gen) :=
    h.updateCounter (by decide) (fun hat => hat.gen) (fun _ => rfl) fun hat => hat.setGen _
  have hstate : FrameTable.bumpGen s f =
      (s.updateCount f FrameInfo.bumpGen FrameInfo.gen).map (·.2) := by
    simp only [FrameTable.bumpGen, updateCount]
    cases s.frameInfo f <;> rfl
  rw [hstate]
  exact hgen.state

theorem setOwner (h : r.Encodes s) (expected : Nat) (new : FrameOwner) :
    Option.Rel Encodes (FrameTable.setOwner r f expected new)
      (FrameTable.setOwner s f expected new) := by
  refine (h.transition expected new).bind ?_
  intro ok r' s' _ h'
  cases ok with
  | true => exact .some h'
  | false => exact .none

end Ram.Encodes

/-! ## The free lists -/

namespace Machine

variable {s s' : Machine} {L : Nat → List Nat} {G : List Nat} {f k : Nat}

/-- Every frame that is not reserved is apart from the frame table. -/
def PoolApart (s : Machine) : Prop := ∀ f, (s.frames f).ownerTag ≠ .reserved → s.Apart f

theorem Apart.congr (h : s.Apart f) (hboot : SameBoot s s') : s'.Apart f := by
  intro x hx hin
  apply h x hx
  simpa only [InTable, tablePhys, hboot.tableBase, hboot.physmapBase, hboot.numFrames] using hin

theorem PoolApart.congr (h : s.PoolApart) (hboot : SameBoot s s') (hframes : s'.frames = s.frames) :
    s'.PoolApart := by
  intro f hf
  rw [hframes] at hf
  exact (h f hf).congr hboot

theorem PoolApart.of_free (h : s.PoolApart) (hf : (s.frames f).owner = .free) : s.Apart f :=
  h f (by rw [FrameInfo.ownerTag, hf]; decide)

theorem PoolApart.head (h : s.PoolApart) (hc : Coherent s L G) (hk : k < shardCount)
    (hne : (s.shards k).head ≠ listEnd) : s.Apart (s.shards k).head := by
  obtain ⟨l, hl, -⟩ := (hc.shardChain k hk).pop hne
  exact h.of_free (hc.of_mem_shard hk (by rw [hl]; exact List.mem_cons_self)).2

theorem transition_boot {expected : Nat} {new : FrameOwner} {ok : Bool}
    (h : FrameTable.transition s f expected new = some (ok, s')) : SameBoot s s' := by
  obtain ⟨info, -, h⟩ := Option.bind_eq_some_iff.1 h
  split at h
  · obtain ⟨-, rfl⟩ := Prod.mk.inj (Option.some.inj h)
    exact ⟨rfl, rfl, rfl⟩
  · obtain ⟨-, rfl⟩ := Prod.mk.inj (Option.some.inj h)
    exact SameBoot.refl _

theorem setOwner_boot {expected : Nat} {new : FrameOwner}
    (h : FrameTable.setOwner s f expected new = some s') : SameBoot s s' := by
  obtain ⟨⟨ok, s₁⟩, htry, h⟩ := Option.bind_eq_some_iff.1 h
  cases ok with
  | true => exact Option.some.inj h ▸ transition_boot htry
  | false => cases h

theorem bumpGen_boot (h : FrameTable.bumpGen s f = some s') : SameBoot s s' := by
  obtain ⟨info, -, h⟩ := Option.bind_eq_some_iff.1 h
  obtain rfl := Option.some.inj h
  exact ⟨rfl, rfl, rfl⟩

end Machine

namespace Ram.Encodes

variable {r : Ram} {s : Machine} {L : Nat → List Nat} {G : List Nat} {f k : Nat}

theorem popShard (h : r.Encodes s)
    (hhead : (s.shards k).head ≠ listEnd → s.Apart (s.shards k).head) :
    InStep Encodes (PoolMem.popShard r k) (PoolMem.popShard s k) := by
  unfold PoolMem.popShard
  rw [h.poolShards]
  dsimp only
  split_ifs with hempty
  · exact .ret h
  · have hne : (s.shards k).head ≠ listEnd := fun heq => hempty (decide_eq_true heq)
    have hnext : PoolMem.listNext r (PoolMem.shards s k).head =
        PoolMem.listNext s (PoolMem.shards s k).head := h.listNext (hhead hne)
    rw [hnext]
    refine ((h.setShard _).setOwner _ _).bind ?_
    intro r' s' _ _ h'
    exact InStep.ret h'

theorem refillShard (h : r.Encodes s) (hc : Coherent s L G) (hap : s.PoolApart) :
    Encodes (PoolMem.refillShard r k) (PoolMem.refillShard s k) := by
  by_cases hne : G = []
  · have hcount : s.global.count = 0 := by rw [hc.globalLength, hne, List.length_nil]
    have hpeel : PoolMem.peelGlobal s = (none, s) := if_pos (by simp [PoolMem.global, hcount])
    have hpeel' : PoolMem.peelGlobal r = (none, r) :=
      if_pos (by simp [PoolMem.global, h.global, hcount])
    simp only [PoolMem.refillShard, hpeel, hpeel']
    exact h
  -- both find the batch `l ++ [a]` at the front of the list
  have hpos : 0 < min G.length shardRefillBatch :=
    lt_min (List.length_pos_iff.2 hne) (by decide)
  obtain ⟨l, a, G₂, hG, hlen⟩ := exists_split_at hpos (min_le_left G.length shardRefillBatch)
  have happ : ∀ g ∈ l ++ [a], s.Apart g := fun g hg =>
    hap.of_free (hc.of_mem_global (by rw [hG]; exact List.mem_append_left G₂ hg)).2
  have hchain := hc.globalChain
  rw [hG] at hchain
  obtain ⟨t, hs, -⟩ := Linked.seg_append.1 hchain.seg
  have hr : Linked.Seg (PoolMem.listNext r) r.global.head (l ++ [a]) t := by
    rw [h.global]
    exact hs.congr fun g hg => h.listNext (happ g hg)
  have hcount : r.global.count = G.length := by rw [h.global, hc.globalLength]
  have hpeel := PoolMem.peelGlobal_eq (s := s) hc.globalLength hlen hs
  have hpeel' := PoolMem.peelGlobal_eq (s := r) hcount hlen hr
  have h₁ := h.setGlobal ⟨t, Word.sub 32 (PoolMem.global s).count (l.length + 1)⟩
  have happ₁ :
      (PoolMem.setGlobal s ⟨t, Word.sub 32 (PoolMem.global s).count (l.length + 1)⟩).Apart a :=
    (happ a (by simp)).congr ⟨rfl, rfl, rfl⟩
  have hglobal : PoolMem.global r = PoolMem.global s := h.global
  rw [hglobal] at hpeel'
  simp only [PoolMem.refillShard, hpeel, hpeel', PoolMem.spliceShard, h₁.poolShards]
  exact (h₁.setListNext happ₁ _).setShard _

theorem allocFrame (h : r.Encodes s) (hc : Coherent s L G) (hap : s.PoolApart) :
    InStep Encodes (PoolMem.allocFrame r) (PoolMem.allocFrame s) := by
  have hk := currentShard_lt
  refine (h.popShard (hap.head hc hk)).bind ?_
  intro res r' s' hpop h'
  cases res with
  | some f => exact InStep.ret h'
  | none =>
      -- nothing was taken, so the refill starts from `s`
      obtain ⟨-, rfl⟩ | ⟨f, hf, -⟩ := popShard_cases hpop
      · obtain ⟨G₁, G₂, -, -, hc', hframes, -⟩ := refillShard_coherent hc hk
        have hap' := hap.congr (refillShard_boot _ _) hframes
        exact (h'.refillShard hc hap).popShard (hap'.head hc' hk)
      · cases hf

theorem freeFrameCount (h : r.Encodes s) : PoolMem.freeFrameCount r = PoolMem.freeFrameCount s := by
  unfold PoolMem.freeFrameCount
  rw [h.poolShards, h.poolGlobal]

theorem pushShard (h : r.Encodes s) (hf : s.Apart f) :
    Encodes (PoolMem.pushShard r k f) (PoolMem.pushShard s k f) := by
  unfold PoolMem.pushShard
  rw [h.poolShards]
  exact (h.setListNext hf _).setShard _

/-! ### Release -/

theorem releaseOn (h : r.Encodes s) (hap : (s.frames f).ownerTag ≠ .reserved → s.Apart f) :
    Option.Rel Encodes (PoolMem.releaseOn r k f) (PoolMem.releaseOn s k f) := by
  unfold PoolMem.releaseOn
  rw [h.owner, h.pinned, h.mappings]
  refine .same ?_
  intro raw hraw
  refine .same ?_
  rintro ⟨tag, id⟩ htag
  refine .ite (fun _ => .none) fun hres => .ite (fun _ => .none) fun _ => ?_
  refine .same fun pins _ => .same fun maps _ => .ite ?_ ?_
  · intro _
    exact .ite (fun _ => h.setOwner raw .pending) fun _ => .some h
  intro _
  -- the frame goes back to the pool, so it was not reserved
  have happ : s.Apart f := by
    apply hap
    intro howner
    obtain ⟨info, hinfo, rfl⟩ := Option.map_eq_some_iff.1 hraw
    obtain ⟨-, -, rfl⟩ := frameInfo_eq_some.1 hinfo
    rw [FrameOwner.decode_raw] at htag
    exact hres ((Prod.mk.inj (Option.some.inj htag)).1.symm.trans howner)
  refine (h.setOwner raw .free).bind ?_
  intro r₁ s₁ _ hs₁ h₁
  refine h₁.bumpGen.bind ?_
  intro r₂ s₂ _ hs₂ h₂
  exact .some (h₂.pushShard (happ.congr ((setOwner_boot hs₁).trans (bumpGen_boot hs₂))))

theorem drainIfReady (h : r.Encodes s) (hap : (s.frames f).ownerTag ≠ .reserved → s.Apart f) :
    Option.Rel Encodes (PoolMem.drainIfReady r f) (PoolMem.drainIfReady s f) := by
  unfold PoolMem.drainIfReady
  rw [h.ownerTag, h.pinned, h.mappings]
  refine .same fun tag _ => .same fun pins _ => .same fun maps _ => ?_
  exact .ite (fun _ => h.releaseOn hap) fun _ => .some h

/-- A count goes down, and the frame drains. -/
theorem dropAndDrain {G : FrameInfo → FrameInfo} {count : FrameInfo → BitVec 32}
    {x : Option (BitVec 32 × Ram)} (h : InStep Encodes x (s.updateCount f G count))
    (hG : ∀ info, (G info).owner = info.owner)
    (hap : (s.frames f).ownerTag ≠ .reserved → s.Apart f) :
    InStep Encodes (x.bind fun p => (PoolMem.drainIfReady p.2 f).bind fun r => some (p.1, r))
      ((s.updateCount f G count).bind fun p =>
        (PoolMem.drainIfReady p.2 f).bind fun s => some (p.1, s)) := by
  refine h.bind ?_
  intro n r' s' hs' h'
  obtain ⟨info, hinfo, heq⟩ := Option.bind_eq_some_iff.1 hs'
  obtain ⟨-, -, rfl⟩ := frameInfo_eq_some.1 hinfo
  obtain ⟨-, rfl⟩ := Prod.mk.inj (Option.some.inj heq)
  refine (h'.drainIfReady ?_).bind fun r₁ s₁ _ _ h₁ => InStep.ret h₁
  intro howner
  rw [setInfo_frames, Function.update_self, FrameInfo.ownerTag, hG] at howner
  exact (hap howner).congr ⟨rfl, rfl, rfl⟩

theorem unpinFrame (h : r.Encodes s) (hap : (s.frames f).ownerTag ≠ .reserved → s.Apart f) :
    InStep Encodes (PoolMem.unpinFrame r f) (PoolMem.unpinFrame s f) :=
  dropAndDrain h.unpin (fun _ => rfl) hap

theorem removeMapping (h : r.Encodes s) (hap : (s.frames f).ownerTag ≠ .reserved → s.Apart f) :
    InStep Encodes (PoolMem.removeMapping r f) (PoolMem.removeMapping s f) :=
  dropAndDrain h.dropMapping (fun _ => rfl) hap

/-! ### Retyping -/

theorem retypeLoop (h : r.Encodes s) (cap : UntypedCap) (domain : DomainId) (endFrame n idx : Nat) :
    Option.Rel (fun x y => x.1 = y.1 ∧ x.2.1 = y.2.1 ∧ Encodes x.2.2 y.2.2)
      (FrameTable.retypeLoop r cap domain endFrame n idx)
      (FrameTable.retypeLoop s cap domain endFrame n idx) := by
  induction n generalizing r s idx with
  | zero => exact .some ⟨rfl, rfl, h⟩
  | succ n ih =>
      unfold FrameTable.retypeLoop
      dsimp only
      generalize (if idx ≥ endFrame then cap.baseFrame else idx) = i
      rw [h.ownerTag, h.ownerId]
      refine .same ?_
      intro tag _
      refine .same ?_
      intro id _
      split_ifs
      · refine (h.transition _ _).bind ?_
        intro ok r' s' _ h'
        cases ok with
        | true => exact .some ⟨rfl, rfl, h'⟩
        | false => exact ih h' _
      · exact ih h _

end Ram.Encodes

end Rolnix
