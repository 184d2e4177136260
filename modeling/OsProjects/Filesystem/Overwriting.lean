import OsProjects.Filesystem.Placement
import OsProjects.Filesystem.Splitting

/-!
# Writes that overwrite and writes that commute

A write grows the file and then stores the data, and growing a file leaves the data
of all files where it is.  Therefore an earlier write shows on the disk only where a
later one leaves it alone, and two writes can be exchanged if they do not overlap and
only one of them takes blocks.
-/

namespace OsProjects.Filesystem

open Library.Program Library.Bytes Library.FirstFit Library.ScatteredStore

namespace Disk

variable {d e r v : Disk} {n m : ℕ}

/-- Where the bytes of the file of inode `n` are. -/
def fileLoc (d : Disk) (n : ℕ) : ℕ → ℕ × ℕ := locate (d.block (d.inode n).headPointerBlock.toNat)

theorem fileLoc_apply (d : Disk) (n p : ℕ) :
    d.fileLoc n p = (d.blockOf (.data n (p / blockSize)), p % blockSize) := rfl

theorem live_of_lt {p last : ℕ} (hn : n < maxFiles) (hused : (d.inode n).used)
    (hp : p < last) (hlast : last ≤ (d.inode n).size.toNat) :
    d.Live (.data n (p / blockSize)) :=
  ⟨hn, hused, Nat.div_le_div_right (by omega)⟩

theorem fileLoc_ne (hd : d.Consistent) {p q : ℕ} (hp : d.Live (.data n (p / blockSize)))
    (hq : d.Live (.data m (q / blockSize))) (hne : n ≠ m ∨ p ≠ q) :
    d.fileLoc n p ≠ d.fileLoc m q := by
  intro heq
  rw [fileLoc_apply, fileLoc_apply, Prod.mk.injEq] at heq
  have hslot := hd.slot_eq hp hq heq.1
  rw [Slot.data.injEq] at hslot
  have hpq : p = q := by rw [← Nat.div_add_mod p blockSize, hslot.2, heq.2, Nat.div_add_mod]
  rcases hne with hne | hne
  · exact hne hslot.1
  · exact hne hpq

/-! ## Growing and stores elsewhere -/

/-- Growing a file commutes with every store that leaves the metadata and the pointer block
of the file alone. -/
theorem bytes_resize_of_store_elsewhere {loc : ℕ → ℕ × ℕ} {pos len : ℕ} {src : ℕ → UInt8}
    (newSize : UInt64) (rs : List ℕ) (hd : d.Consistent) (hn : n < maxFiles)
    (hused : (d.inode n).used) (hinj : Set.InjOn loc (Set.Ico pos (pos + len)))
    (hloc : ∀ p, pos ≤ p → p < pos + len →
      9 ≤ (loc p).1 ∧ (loc p).1 ≠ (d.inode n).headPointerBlock.toNat)
    (he : e.bytes = store d.bytes loc pos len src) :
    (e.resize n newSize rs).bytes = store (d.resize n newSize rs).bytes loc pos len src := by
  have hlow := hd.le_head hn hused
  have hhead := hd.head_lt hn hused
  have hkeep : ∀ b, b < 9 ∨ b = (d.inode n).headPointerBlock.toNat → e.block b = d.block b := by
    intro b hb
    apply buffer_ext
    intro o _
    change e.bytes (b, o) = d.bytes (b, o)
    rw [he, store_of_forall_ne]
    rintro p hp hlt heq
    obtain ⟨hle, hne⟩ := hloc p hp hlt
    rw [heq] at hle hne
    rcases hb with hb | hb
    · exact Nat.not_lt.mpr hle hb
    · exact hne hb
  have hsmall : n / 128 < 8 := by
    simp only [maxFiles] at hn
    omega
  have hinode : e.inode n = d.inode n := by
    rw [inode, hkeep _ (.inl (by omega)), inode]
  rw [resize, resize, hinode]
  split
  · apply eq_store hinj
    · intro p hp hlt
      obtain ⟨hle, hne⟩ := hloc p hp hlt
      rw [bytes, block_grow_of_ne newSize rs hn hle (by rw [hinode]; exact hne)]
      change e.bytes (loc p) = _
      rw [he, store_loc hinj hp hlt]
    · rintro ⟨b, o⟩ hmiss
      simp only [bytes]
      by_cases hb : b = n / 128
      · rw [hb, block_grow_inode hn, block_grow_inode hn, hkeep _ (.inl (by omega))]
      by_cases hb' : b = (d.inode n).headPointerBlock.toNat
      · rw [grow, grow, hinode, hb', block_set_of_ne _ _ (by omega), block_set_self _ _ hhead,
          block_set_of_ne _ _ (by omega), block_set_self _ _ hhead, hkeep _ (.inr rfl)]
      rw [block_grow_other hb (by rw [hinode]; exact hb'), block_grow_other hb hb']
      by_cases h8 : b = 8
      · rw [h8, block_eight_markBlocks (hkeep 8 (.inl (by omega)))]
      · rw [block_markBlocks_of_ne _ _ h8, block_markBlocks_of_ne _ _ h8]
        change e.bytes (b, o) = d.bytes (b, o)
        rw [he, store_of_forall_ne hmiss]
  · exact he

/-! ## Overwriting -/

section Covered

variable {toPos howMany toPos' howMany' : UInt64} {buffer buffer' : ℕ → UInt8} {xs ys rs : List ℕ}

theorem AfterWrite.covered {u : Disk} (hd : d.Consistent) (hn : n < maxFiles)
    (hused : (d.inode n).used) (hpos : toPos'.toNat ≤ toPos.toNat)
    (hcover : toPos.toNat + howMany.toNat ≤ toPos'.toNat + howMany'.toNat)
    (hend : toPos'.toNat + howMany'.toNat < 512 * blockSize)
    (hv : d.AfterWrite v n howMany toPos buffer xs)
    (he : v.AfterWrite e n howMany' toPos' buffer' ys)
    (hu : d.AfterWrite u n howMany' toPos' buffer' rs) : e = u := by
  have hfirst : toPos.toNat + howMany.toNat < 512 * blockSize := by omega
  have hsum := (window_arith hfirst).1
  have hsum' := (window_arith hend).1
  have hinode := (hv.sameMetadata hd hn hused hfirst).inode n hn
  -- both writes together take the blocks of the second one
  have hrs : rs = xs ++ ys := by
    have htake := hv.takeFree_append hd hn hused hfirst (by omega) he.taken
    rw [hu.taken] at htake
    exact Option.some.inj htake
  subst hrs
  have hlength : ys.length =
      (d.resize n (toPos + howMany) xs).growth n (toPos' + howMany').toNat := by
    rw [takeFree_length he.taken, growth, hinode, growth]
  have hresize : (d.resize n (toPos + howMany) xs).resize n (toPos' + howMany') ys =
      d.resize n (toPos' + howMany') (xs ++ ys) :=
    resize_resize hd hn hused (by rw [hsum]; exact hfirst) (by omega) hv.taken hv.lt_numBlocks
      hlength
  have hmiddle := bytes_resize_of_store (toPos' + howMany') ys
    (hv.consistent_resize hd hn hused hfirst) hn (AfterWrite.used_resize hd hn hused)
    (AfterWrite.le_size_resize hd hn hused hfirst) (hv.bytes_eq hd hn hused)
  have hhead := headPointerBlock_resize (toPos + howMany) xs hd hn hused
  have hhead' := headPointerBlock_resize (toPos' + howMany') (xs ++ ys) hd hn hused
  have hbytes := he.bytes
  rw [hresize, hhead] at hmiddle
  rw [hinode, hhead] at hbytes
  have hd' := hu.consistent_resize hd hn hused hend
  have hused' : ((d.resize n (toPos' + howMany') (xs ++ ys)).inode n).used :=
    AfterWrite.used_resize hd hn hused
  have hle : toPos'.toNat + howMany'.toNat ≤
      ((d.resize n (toPos' + howMany') (xs ++ ys)).inode n).size.toNat :=
    AfterWrite.le_size_resize hd hn hused hend
  have hbytes' := hu.bytes
  generalize d.resize n (toPos' + howMany') (xs ++ ys) = grown at *
  have hpointers : (v.resize n (toPos' + howMany') ys).block
      (d.inode n).headPointerBlock.toNat = grown.block (d.inode n).headPointerBlock.toNat := by
    rw [← hhead'] at hmiddle ⊢
    exact (sameMetadata_of_store hd' hn hused' (hcover.trans hle) hmiddle).pointers n hn hused'
  have hinj : Set.InjOn (locate (grown.block (d.inode n).headPointerBlock.toNat))
      (Set.Ico toPos'.toNat (toPos'.toNat + howMany'.toNat)) := by
    rw [← hhead']
    exact hd'.injOn_locate hn hused' hle
  apply ext_bytes
  rw [hbytes, hpointers, hmiddle, hbytes', store_covered hinj hpos hcover]

end Covered

/-! ## Exchanging writes -/

section Exchange

theorem resize_of_le {newSize : UInt64} {rs : List ℕ}
    (h : newSize.toNat ≤ (d.inode n).size.toNat) : d.resize n newSize rs = d :=
  if_neg fun hlt ↦ Nat.not_lt.mpr h (UInt64.lt_iff_toNat_lt.mp hlt)

theorem le_size_resize_of_le (hd : d.Consistent) (hn : n < maxFiles) (hused : (d.inode n).used)
    (hm : m < maxFiles) (newSize : UInt64) (rs : List ℕ) :
    (d.inode m).size.toNat ≤ ((d.resize n newSize rs).inode m).size.toNat := by
  by_cases hmn : m = n
  · rw [hmn, size_resize newSize rs hd hn hused]
    exact le_max_left _ _
  · rw [inode_resize newSize rs hd hn hused hm, if_neg hmn]

variable {toPos howMany : UInt64} {buffer : ℕ → UInt8} {rs : List ℕ}

theorem AfterWrite.bytes_fileLoc (h : d.AfterWrite e n howMany toPos buffer rs) (hd : d.Consistent)
    (hn : n < maxFiles) (hused : (d.inode n).used) :
    e.bytes = store (d.resize n (toPos + howMany) rs).bytes
      ((d.resize n (toPos + howMany) rs).fileLoc n) toPos.toNat howMany.toNat buffer :=
  h.bytes_eq hd hn hused

theorem AfterWrite.bytes_of_le (h : d.AfterWrite e n howMany toPos buffer rs)
    (hle : (toPos + howMany).toNat ≤ (d.inode n).size.toNat) :
    e.bytes = store d.bytes (d.fileLoc n) toPos.toNat howMany.toNat buffer := by
  have hbytes := h.bytes
  rwa [resize_of_le hle] at hbytes

theorem store_fileLoc_congr (hd : d.Consistent) (hn : n < maxFiles) (hused : (d.inode n).used)
    {pos len : ℕ} (hend : pos + len ≤ (d.inode n).size.toNat)
    (hblock : ∀ s, d.Live s → e.blockOf s = d.blockOf s) (f : ℕ × ℕ → UInt8) :
    store f (e.fileLoc n) pos len buffer = store f (d.fileLoc n) pos len buffer :=
  store_congr (hd.injOn_locate hn hused hend)
    (fun _ _ hlt ↦ congrArg (·, _) (hblock _ (live_of_lt hn hused hlt hend))) fun _ _ ↦ rfl

variable {toPos' howMany' : UInt64} {buffer' : ℕ → UInt8} {rs' xs xs' : List ℕ} {e' v' : Disk}

/-- A write that may take blocks and one that does not leave the same disk in both orders. -/
theorem AfterWrite.comm (hd : d.Consistent) (hn : n < maxFiles) (hused : (d.inode n).used)
    (hend : toPos.toNat + howMany.toNat < 512 * blockSize) (hm : m < maxFiles)
    (hused' : (d.inode m).used)
    (hle : toPos'.toNat + howMany'.toNat ≤ (d.inode m).size.toNat)
    (happart : n = m → toPos.toNat + howMany.toNat ≤ toPos'.toNat ∨
      toPos'.toNat + howMany'.toNat ≤ toPos.toNat)
    (hv : d.AfterWrite v n howMany toPos buffer xs)
    (he : v.AfterWrite e m howMany' toPos' buffer' rs)
    (hv' : d.AfterWrite v' m howMany' toPos' buffer' rs')
    (he' : v'.AfterWrite e' n howMany toPos buffer xs') : e = e' := by
  have hlimit : toPos'.toNat + howMany'.toNat < 512 * blockSize :=
    hle.trans_lt (hd.size_lt m hm hused')
  have hsum := (window_arith hlimit).1
  have hsame : SameMetadata d v' := by
    have hsame := hv'.sameMetadata hd hm hused' hlimit
    rwa [resize_of_le (by rw [hsum]; exact hle)] at hsame
  -- the write that takes blocks takes the same ones in both orders
  have hxs : xs' = xs := by
    have htake := he'.taken
    rw [growth, hsame.inode n hn, hsame.marked, ← growth, hv.taken] at htake
    exact (Option.some.inj htake).symm
  subst hxs
  have hr := hv.consistent_resize hd hn hused hend
  have hblock := fun s hs ↦ blockOf_resize_of_live (s := s) hd hn hused (toPos + howMany) xs' hs
  have hfit : toPos.toNat + howMany.toNat ≤
      ((d.resize n (toPos + howMany) xs').inode n).size.toNat :=
    AfterWrite.le_size_resize hd hn hused hend
  have hrused : ((d.resize n (toPos + howMany) xs').inode n).used :=
    AfterWrite.used_resize hd hn hused
  have hrused' : ((d.resize n (toPos + howMany) xs').inode m).used :=
    (live_resize (s := .pointer m) (toPos + howMany) xs' hd hn hused ⟨hm, hused'⟩).2
  have hfit' : toPos'.toNat + howMany'.toNat ≤
      ((d.resize n (toPos + howMany) xs').inode m).size.toNat :=
    hle.trans (le_size_resize_of_le hd hn hused hm _ _)
  -- the second write after the first
  have hvsize : (toPos' + howMany').toNat ≤ (v.inode m).size.toNat := by
    rw [hsum, (hv.sameMetadata hd hn hused hend).inode m hm]
    exact hfit'
  have hfirstOrder := he.bytes_of_le hvsize
  rw [store_fileLoc_congr hr hm hrused' hfit'
    fun s hs ↦ (hv.sameMetadata hd hn hused hend).blockOf_eq hs,
    hv.bytes_fileLoc hd hn hused] at hfirstOrder
  -- the first write after the second
  have hgrown := bytes_resize_of_store_elsewhere (toPos + howMany) xs' hd hn hused
    (hd.injOn_locate hm hused' hle)
    (fun p _ hlt ↦ ⟨hd.le_blockOf _ (live_of_lt hm hused' hlt hle),
      hd.dataBlock_ne_head hn hused (live_of_lt hm hused' hlt hle)⟩)
    (hv'.bytes_of_le (by rw [hsum]; exact hle))
  have hloc : ∀ f, store f (locate (d.block (d.inode m).headPointerBlock.toNat)) toPos'.toNat
      howMany'.toNat buffer' = store f ((d.resize n (toPos + howMany) xs').fileLoc m) toPos'.toNat
        howMany'.toNat buffer' :=
    fun f ↦ (store_fileLoc_congr hd hm hused' hle hblock f).symm
  rw [hloc] at hgrown
  have hsecondOrder := he'.bytes_fileLoc (hsame.consistent hd) hn
    (by rw [hsame.inode n hn]; exact hused)
  generalize d.resize n (toPos + howMany) xs' = r at *
  rw [store_fileLoc_congr hr hn hrused hfit
    fun s hs ↦ (sameMetadata_of_store hr hm hrused' hfit' hgrown).blockOf_eq hs,
    hgrown] at hsecondOrder
  have hapart : ∀ p, toPos.toNat ≤ p → p < toPos.toNat + howMany.toNat →
      ∀ q, toPos'.toNat ≤ q → q < toPos'.toNat + howMany'.toNat →
        r.fileLoc n p ≠ r.fileLoc m q := by
    intro p hp hlt q hq hlt'
    refine fileLoc_ne hr (live_of_lt hn hrused hlt hfit) (live_of_lt hm hrused' hlt' hfit') ?_
    by_cases hnm : n = m
    · have := happart hnm
      exact .inr (by omega)
    · exact .inl hnm
  have hinj : Set.InjOn (r.fileLoc n) (Set.Ico toPos.toNat (toPos.toNat + howMany.toNat)) :=
    hr.injOn_locate hn hrused hfit
  have hinj' : Set.InjOn (r.fileLoc m) (Set.Ico toPos'.toNat (toPos'.toNat + howMany'.toNat)) :=
    hr.injOn_locate hm hrused' hfit'
  apply ext_bytes
  rw [hfirstOrder, hsecondOrder, store_comm hinj hinj' hapart]

theorem growth_eq_zero_of_le {newSize : ℕ} (h : newSize ≤ (d.inode n).size.toNat) :
    d.growth n newSize = 0 :=
  Nat.sub_eq_zero_of_le (Nat.div_le_div_right h)

/-- A write of the bytes that are there already changes nothing. -/
theorem AfterWrite.eq_of_same (h : d.AfterWrite e n howMany toPos buffer rs) (hd : d.Consistent)
    (hn : n < maxFiles) (hused : (d.inode n).used)
    (hle : toPos.toNat + howMany.toNat ≤ (d.inode n).size.toNat)
    (hbuffer : ∀ i < howMany.toNat, buffer i = d.fileByte n (toPos.toNat + i)) : e = d := by
  have hsum := (window_arith (hle.trans_lt (hd.size_lt n hn hused))).1
  apply ext_bytes
  rw [h.bytes_of_le (by rw [hsum]; exact hle)]
  exact store_same (hd.injOn_locate hn hused hle) hbuffer

end Exchange

end Disk

/-! ## Calls in a session -/

theorem World.exists_write {w : World} {n howMany toPos : UInt64} (buffer : ℕ → UInt8)
    {rs : List ℕ} (hw : w.Formatted) (hd : w.storage.Consistent) (hn : n.toNat < maxFiles)
    (hused : (w.storage.inode n.toNat).used) (hend : toPos.toNat + howMany.toNat < 512 * blockSize)
    (hrs : takeFree 9 bitmapBits (w.storage.growth n.toNat (toPos + howMany).toNat)
      w.storage.marked = some rs) (hdevice : ∀ r ∈ rs, r < numBlocks) :
    ∃ u, (ifileWrite n buffer howMany toPos).run w = .ok 0 u ∧ u.Formatted ∧
      w.storage.AfterWrite u.storage n.toNat howMany toPos buffer rs := by
  have hsum := (window_arith hend).1
  obtain ⟨code, u, hrun, rfl, e, hbecomes, hbytes⟩ :=
    @ifileWrite_returns w n howMany toPos buffer hw hd hn hused rs hend (by rw [← hsum]; exact hrs)
      hdevice
  refine ⟨u, hrun, hbecomes.formatted hw, hrs, hdevice, ?_⟩
  rw [hbecomes.storage, hbytes]

section Sessions

variable {d : Disk} {g : Globals} {stack : ℕ → Block} {calls : List Call} {s : Session}

/-- A write that a later write of the same file covers leaves no trace on the disk, even if
both of them make the file grow. -/
theorem session_write_covered (h : Reaches d g stack calls s) {n : UInt64} {f : File}
    (hf : s.files n = some f) {toPos howMany toPos' howMany' : UInt64} (buffer buffer' : ℕ → UInt8)
    (hpos : toPos'.toNat ≤ toPos.toNat)
    (hcover : toPos.toNat + howMany.toNat ≤ toPos'.toNat + howMany'.toNat)
    (hend : toPos'.toNat + howMany'.toNat < 512 * blockSize)
    (hroom : s.world.storage.growth n.toNat (toPos'.toNat + howMany'.toNat) ≤
      (freeBelow 9 numBlocks s.world.storage.marked).card) :
    ∃ u v v', (ifileWrite n buffer' howMany' toPos').run s.world = .ok 0 u ∧
      (ifileWrite n buffer howMany toPos).run s.world = .ok 0 v ∧
      (ifileWrite n buffer' howMany' toPos').run v = .ok 0 v' ∧ v'.storage = u.storage := by
  have hs := h.valid
  have hd := hs.consistent
  have hn := hs.lt_maxFiles n f hf
  have hused := hs.used n f hf
  have hfirst : toPos.toNat + howMany.toNat < 512 * blockSize := by omega
  have hsum := (window_arith hfirst).1
  have hsum' := (window_arith hend).1
  rw [← hsum'] at hroom
  have hbits : numBlocks ≤ bitmapBits := by decide
  obtain ⟨rs, hrs, hdevice⟩ := takeFree_of_card_le hbits hroom
  -- the first write takes a part of the blocks
  have hpart : s.world.storage.growth n.toNat (toPos + howMany).toNat ≤
      s.world.storage.growth n.toNat (toPos' + howMany').toNat :=
    Nat.sub_le_sub_right (Nat.div_le_div_right (by omega)) _
  obtain ⟨rest, hrest⟩ := Nat.exists_eq_add_of_le hpart
  have hsplit := hrs
  rw [hrest] at hsplit
  obtain ⟨xs, zs, hxs, -, hlist⟩ := takeFree_split hsplit
  obtain ⟨u, hu, -, hafter⟩ := World.exists_write buffer' hs.formatted hd hn hused hend hrs hdevice
  obtain ⟨v, hv, hformatted, hafter₁⟩ := World.exists_write buffer hs.formatted hd hn hused hfirst
    hxs fun r hr ↦ hdevice r (hlist ▸ List.mem_append_left zs hr)
  obtain ⟨ys, hys, hlist'⟩ := hafter₁.takeFree_rest hd hn hused hfirst (by omega) hrs
  obtain ⟨v', hv', -, hafter₂⟩ := World.exists_write buffer' hformatted
    (hafter₁.consistent hd hn hused hfirst) hn (hafter₁.used hd hn hused hfirst) hend hys
    fun r hr ↦ hdevice r (hlist' ▸ List.mem_append_right xs hr)
  exact ⟨u, v, v', hu, hv, hv', hafter₁.covered hd hn hused hpos hcover hend hafter₂ hafter⟩

/-- Both writes make the file grow, by one block and by two. -/
theorem session_write_covered_growing :
    ∃ s : Session, s.world.storage.growth 0 4097 = 1 ∧ s.world.storage.growth 0 8193 = 2 ∧
      ∃ u v v', (ifileWrite 0 (fun _ ↦ 1) 8193 0).run s.world = .ok 0 u ∧
        (ifileWrite 0 (fun _ ↦ 2) 2 4095).run s.world = .ok 0 v ∧
        (ifileWrite 0 (fun _ ↦ 1) 8193 0).run v = .ok 0 v' ∧ v'.storage = u.storage := by
  obtain ⟨s, hcreate, hf, -⟩ :=
    reaches_create_zero (fun _ ↦ zeroedBlock) formattedGlobals (fun _ ↦ zeroedBlock)
  have hsize : (s.world.storage.inode 0).size.toNat = 0 := hcreate.valid.size 0 _ hf
  have hend : (0 : UInt64).toNat + (8193 : UInt64).toNat < 512 * blockSize := by decide
  obtain ⟨p, hp, -, hfollows⟩ := hcreate.follows
  cases hp
  have hroom := hfollows.growth_le hcreate.valid hf hend (by decide)
  refine ⟨s, ?_, ?_, session_write_covered hcreate hf _ _ (by decide) (by decide) hend hroom⟩
  · rw [Disk.growth, hsize]
    rfl
  · rw [Disk.growth, hsize]
    rfl

/-- Two writes that do not overlap, of which at most one makes its file grow, leave the same
disk in both orders. -/
theorem session_writes_commute (h : Reaches d g stack calls s) {n m : UInt64} {f f' : File}
    (hf : s.files n = some f) (hf' : s.files m = some f') {toPos howMany toPos' howMany' : UInt64}
    (buffer buffer' : ℕ → UInt8) (hend : toPos.toNat + howMany.toNat < 512 * blockSize)
    (hroom : s.world.storage.growth n.toNat (toPos.toNat + howMany.toNat) ≤
      (freeBelow 9 numBlocks s.world.storage.marked).card)
    (hinside : toPos'.toNat + howMany'.toNat ≤ f'.size)
    (happart : n = m → toPos.toNat + howMany.toNat ≤ toPos'.toNat ∨
      toPos'.toNat + howMany'.toNat ≤ toPos.toNat) :
    ∃ u u' v v', (ifileWrite n buffer howMany toPos).run s.world = .ok 0 u ∧
      (ifileWrite m buffer' howMany' toPos').run u = .ok 0 u' ∧
      (ifileWrite m buffer' howMany' toPos').run s.world = .ok 0 v ∧
      (ifileWrite n buffer howMany toPos).run v = .ok 0 v' ∧ u'.storage = v'.storage := by
  have hs := h.valid
  have hd := hs.consistent
  have hn := hs.lt_maxFiles n f hf
  have hused := hs.used n f hf
  have hm := hs.lt_maxFiles m f' hf'
  have hused' := hs.used m f' hf'
  rw [← hs.size m f' hf'] at hinside
  have hlimit := hinside.trans_lt (hd.size_lt m.toNat hm hused')
  have hsum := (window_arith hlimit).1
  rw [← (window_arith hend).1] at hroom
  have hbits : numBlocks ≤ bitmapBits := by decide
  obtain ⟨rs, hrs, hdevice⟩ := takeFree_of_card_le hbits hroom
  have hnone : ∀ {e : Disk}, (s.world.storage.inode m.toNat).size.toNat ≤
      (e.inode m.toNat).size.toNat →
      takeFree 9 bitmapBits (e.growth m.toNat (toPos' + howMany').toNat) e.marked = some [] := by
    intro e hle
    rw [Disk.growth_eq_zero_of_le (by rw [hsum]; exact hinside.trans hle), takeFree_zero]
  -- the growing write first
  obtain ⟨u, hu, huformatted, hafter⟩ :=
    World.exists_write buffer hs.formatted hd hn hused hend hrs hdevice
  have hsame := hafter.sameMetadata hd hn hused hend
  have husize : (s.world.storage.inode m.toNat).size.toNat ≤
      (u.storage.inode m.toNat).size.toNat := by
    rw [hsame.inode m.toNat hm]
    exact Disk.le_size_resize_of_le hd hn hused hm _ _
  have hlive := (hsame.live_iff (.pointer m.toNat)).mpr
    (Disk.live_resize (toPos + howMany) rs hd hn hused ⟨hm, hused'⟩)
  obtain ⟨u', hu', -, hafter'⟩ := World.exists_write buffer' huformatted
    (hafter.consistent hd hn hused hend) hm hlive.2 hlimit (hnone husize) (by simp)
  -- the growing write last
  obtain ⟨v, hv, hvformatted, hbefore⟩ :=
    World.exists_write buffer' hs.formatted hd hm hused' hlimit (hnone le_rfl) (by simp)
  have hkept := hbefore.sameMetadata hd hm hused' hlimit
  rw [Disk.resize_of_le (by rw [hsum]; exact hinside)] at hkept
  have hgrowth : takeFree 9 bitmapBits (v.storage.growth n.toNat (toPos + howMany).toNat)
      v.storage.marked = some rs := by
    rw [Disk.growth, hkept.inode n.toNat hn, hkept.marked]
    exact hrs
  obtain ⟨v', hv', -, hbefore'⟩ := World.exists_write buffer hvformatted (hkept.consistent hd) hn
    (by rw [hkept.inode n.toNat hn]; exact hused) hend hgrowth hdevice
  exact ⟨u, u', v, v', hu, hu', hv, hv', Disk.AfterWrite.comm hd hn hused hend hm hused' hinside
    (fun heq ↦ happart (UInt64.toNat_inj.mp heq)) hafter hafter' hbefore hbefore'⟩

/-- A file of two bytes is overwritten, and grows into a second block. -/
theorem session_writes_commute_growing :
    ∃ s : Session, (s.world.storage.inode 0).size.toNat = 2 ∧ s.world.storage.growth 0 4097 = 1 ∧
      ∃ u u' v v', (ifileWrite 0 (fun _ ↦ 1) 2 4095).run s.world = .ok 0 u ∧
        (ifileWrite 0 (fun _ ↦ 2) 2 0).run u = .ok 0 u' ∧
        (ifileWrite 0 (fun _ ↦ 2) 2 0).run s.world = .ok 0 v ∧
        (ifileWrite 0 (fun _ ↦ 1) 2 4095).run v = .ok 0 v' ∧ u'.storage = v'.storage := by
  obtain ⟨s, hcreate, hf, -⟩ :=
    reaches_create_zero (fun _ ↦ zeroedBlock) formattedGlobals (fun _ ↦ zeroedBlock)
  have hnone : s.world.storage.growth 0 2 = 0 := by
    rw [Disk.growth, Nat.div_eq_of_lt (by decide), Nat.zero_sub]
  obtain ⟨t, -, hfiles, ht⟩ := hcreate.write (fun _ ↦ 65) hf (show (0 : UInt64).toNat +
    (2 : UInt64).toNat < 512 * blockSize by decide) (hnone.le.trans (Nat.zero_le _))
  have hwritten : t.files 0 = some (File.empty.write 0 2 fun _ ↦ 65) := by
    rw [hfiles]
    exact Function.update_self ..
  have hsize : (t.world.storage.inode 0).size.toNat = 2 := ht.valid.size 0 _ hwritten
  have hgrowth : t.world.storage.growth 0 4097 = 1 := by
    rw [Disk.growth, hsize]
    rfl
  obtain ⟨p, hp, -, hfollows⟩ := ht.follows
  cases hp
  have hend : (4095 : UInt64).toNat + (2 : UInt64).toNat < 512 * blockSize := by decide
  have hroom := hfollows.growth_le ht.valid hwritten hend (by decide)
  exact ⟨t, hsize, hgrowth, session_writes_commute ht hwritten hwritten _ _ hend hroom (by decide)
    fun _ ↦ .inr (by decide)⟩

/-- Writing back what was read leaves the disk as it is. -/
theorem session_read_write_back (h : Reaches d g stack calls s) {n : UInt64} {f : File}
    (hf : s.files n = some f) {howMany pos : UInt64} (hend : pos.toNat + howMany.toNat ≤ f.size)
    (buffer : ℕ → UInt8) :
    ∃ buffer' u v, (ifileRead n buffer howMany pos).run s.world = .ok (0, buffer') u ∧
      (ifileWrite n buffer' howMany pos).run u = .ok 0 v ∧ v.storage = s.world.storage := by
  have hs := h.valid
  have hd := hs.consistent
  have hn := hs.lt_maxFiles n f hf
  have hused := hs.used n f hf
  rw [← hs.size n f hf] at hend
  have hlimit := hend.trans_lt (hd.size_lt n.toNat hn hused)
  obtain ⟨⟨code, buffer'⟩, u, hread, rfl, hu, hbuffer⟩ :=
    @ifileRead_returns s.world n _ _ buffer hs.formatted hd hn hused hend
  have hnone : takeFree 9 bitmapBits (u.storage.growth n.toNat (pos + howMany).toNat)
      u.storage.marked = some [] := by
    rw [hu.storage, Disk.growth_eq_zero_of_le (by rw [(window_arith hlimit).1]; exact hend),
      takeFree_zero]
  obtain ⟨v, hwrite, -, hafter⟩ := World.exists_write buffer' (hu.formatted hs.formatted)
    (by rw [hu.storage]; exact hd) hn (by rw [hu.storage]; exact hused) hlimit hnone (by simp)
  rw [hu.storage] at hafter
  refine ⟨buffer', u, v, hread, hwrite, hafter.eq_of_same hd hn hused hend fun i hi ↦ ?_⟩
  exact (congrFun hbuffer i).trans (if_pos ⟨Nat.zero_le i, by omega⟩)

theorem session_read_write_back_one_byte :
    ∃ (s : Session) (buffer : ℕ → UInt8) (u v : World),
      (ifileRead 0 (fun _ ↦ 0) 1 0).run s.world = .ok (0, buffer) u ∧
      (ifileWrite 0 buffer 1 0).run u = .ok 0 v ∧ v.storage = s.world.storage := by
  obtain ⟨s, hcreate, hf, -⟩ :=
    reaches_create_zero (fun _ ↦ zeroedBlock) formattedGlobals (fun _ ↦ zeroedBlock)
  have hgrowth : s.world.storage.growth 0 1 = 0 := by
    rw [Disk.growth, Nat.div_eq_of_lt (by decide), Nat.zero_sub]
  obtain ⟨t, -, hfiles, hwrite⟩ := hcreate.write (fun _ ↦ 65) hf (show (0 : UInt64).toNat +
    (1 : UInt64).toNat < 512 * blockSize by decide) (hgrowth.le.trans (Nat.zero_le _))
  have hwritten : t.files 0 = some (File.empty.write 0 1 fun _ ↦ 65) := by
    rw [hfiles]
    exact Function.update_self ..
  exact ⟨t, session_read_write_back hwrite hwritten (by decide) _⟩

end Sessions

end OsProjects.Filesystem
