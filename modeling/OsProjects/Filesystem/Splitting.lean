import OsProjects.Filesystem.Sessions

/-!
# Cutting a write in two

A write first grows the file and then stores the data.  Two consecutive writes
do so alternately.  They leave the same disk as one write because growing in
two steps takes the same blocks, and because growth commutes with a store into
the part of the file that is there already.
-/

namespace OsProjects.Filesystem

open Library.Program Library.Bytes Library.FirstFit Library.ScatteredStore

namespace Disk

variable {d e : Disk} {n : ℕ} {newSize : UInt64} {xs ys rs : List ℕ}

/-! ## Growing twice -/

theorem block_grow_inode (hn : n < maxFiles) :
    (d.grow n newSize rs).block (n / 128) =
      setInodeSize (d.block (n / 128)) (n % 128) newSize := by
  rw [grow, block_set_self _ _ (div_lt_numBlocks hn)]

theorem block_grow_other {b : ℕ} (hne : b ≠ n / 128)
    (hne' : b ≠ (d.inode n).headPointerBlock.toNat) :
    (d.grow n newSize rs).block b = (d.markBlocks rs).block b := by
  rw [grow, block_set_of_ne _ _ hne, block_set_of_ne _ _ hne']

theorem block_eight_markBlocks (h : e.block 8 = d.block 8) (rs : List ℕ) :
    (e.markBlocks rs).block 8 = (d.markBlocks rs).block 8 := by
  induction rs generalizing d e with
  | nil => exact h
  | cons r rs ih =>
      refine ih ?_
      rw [markBlock, markBlock, block_set_self _ _ (by decide), block_set_self _ _ (by decide), h]

theorem grow_grow {first second : UInt64} (hd : d.Consistent) (hn : n < maxFiles)
    (hused : (d.inode n).used)
    (hxs : takeFree 9 bitmapBits (d.growth n first.toNat) d.marked = some xs)
    (hdevice : ∀ r ∈ xs, r < numBlocks) (hgrows : (d.inode n).size < first)
    (hend : first.toNat < 512 * blockSize) :
    (d.grow n first xs).grow n second ys = d.grow n second (xs ++ ys) := by
  have hgrown := hd.grow hn hused hend hxs hdevice
  have hinode := inode_grow first xs hd hn hused hn
  rw [if_pos rfl] at hinode
  have hused' : ((d.grow n first xs).inode n).used := by
    rw [hinode]
    exact hused
  have hhead := hd.le_head hn hused
  have hlow : n / 128 < 8 := by
    simp only [maxFiles] at hn
    omega
  have hlen := takeFree_length hxs
  have hle := UInt64.lt_iff_toNat_lt.mp hgrows
  have hnext :
      (d.inode n).size.toNat / blockSize + 1 + xs.length = first.toNat / blockSize + 1 := by
    have hdiv := Nat.div_le_div_right (c := blockSize) hle.le
    rw [hlen, growth]
    omega
  have hhead' : ((d.grow n first xs).inode n).headPointerBlock = (d.inode n).headPointerBlock := by
    rw [hinode]
  apply ext_block
  intro b _
  by_cases hb : b = n / 128
  · rw [hb, block_grow_inode hn, block_grow_inode hn, block_grow_inode hn, setInodeSize,
      setInodeSize, setInodeSize, writeLE, writeLE, writeLE, copyInto_copyInto_self]
  by_cases hb' : b = (d.inode n).headPointerBlock.toNat
  · have hsecond := block_grow_head second ys hgrown hn hused'
    rw [hhead'] at hsecond
    rw [hb', hsecond, block_grow_head first xs hd hn hused,
      block_grow_head second (xs ++ ys) hd hn hused, setEntries_append, hnext, hinode]
  rw [block_grow_other hb (by rw [hhead']; exact hb'), block_grow_other hb hb', markBlocks_append]
  by_cases h8 : b = 8
  · rw [h8]
    exact block_eight_markBlocks (block_grow_other (by omega) (by omega)) ys
  · rw [block_markBlocks_of_ne _ _ h8, block_markBlocks_of_ne _ _ h8, block_grow_other hb hb']

theorem resize_resize {first second : UInt64} (hd : d.Consistent) (hn : n < maxFiles)
    (hused : (d.inode n).used) (hend : first.toNat < 512 * blockSize)
    (hle : first.toNat ≤ second.toNat)
    (hxs : takeFree 9 bitmapBits (d.growth n first.toNat) d.marked = some xs)
    (hdevice : ∀ r ∈ xs, r < numBlocks)
    (hys : ys.length = (d.resize n first xs).growth n second.toNat) :
    (d.resize n first xs).resize n second ys = d.resize n second (xs ++ ys) := by
  have hsize := inode_resize first xs hd hn hused hn
  rw [if_pos rfl] at hsize
  by_cases hgrows : (d.inode n).size < first
  · have hlt := UInt64.lt_iff_toNat_lt.mp hgrows
    have hfirst : d.resize n first xs = d.grow n first xs := if_pos hgrows
    rw [if_pos hgrows] at hsize
    have hboth : (d.inode n).size < second := UInt64.lt_iff_toNat_lt.mpr (by omega)
    rw [resize, hsize, hfirst]
    rw [resize, if_pos hboth]
    by_cases hmore : first < second
    · rw [if_pos hmore, grow_grow hd hn hused hxs hdevice hgrows hend]
    · have heq : first = second := by
        apply UInt64.toNat_inj.mp
        have := UInt64.lt_iff_toNat_lt.not.mp hmore
        omega
      rw [growth, hsize, heq, Nat.sub_self] at hys
      rw [if_neg hmore, List.length_eq_zero_iff.mp hys, List.append_nil, heq]
  · rw [growth_eq_zero first hgrows, takeFree_zero, Option.some.injEq] at hxs
    rw [resize, resize, if_neg hgrows, ← hxs, List.nil_append, resize]

/-! ## Growing after a store -/

theorem bytes_resize_of_store (newSize : UInt64) (rs : List ℕ) {pos len : ℕ} {src : ℕ → UInt8}
    (hd : d.Consistent) (hn : n < maxFiles) (hused : (d.inode n).used)
    (hend : pos + len ≤ (d.inode n).size.toNat)
    (he : e.bytes =
      store d.bytes (locate (d.block (d.inode n).headPointerBlock.toNat)) pos len src) :
    (e.resize n newSize rs).bytes = store (d.resize n newSize rs).bytes
      (locate ((d.resize n newSize rs).block (d.inode n).headPointerBlock.toNat)) pos len src := by
  have hsame := sameMetadata_of_store hd hn hused hend he
  have hinode := hsame.inode n hn
  rw [resize, resize, hinode]
  by_cases hgrows : (d.inode n).size < newSize
  · rw [if_pos hgrows, if_pos hgrows]
    have hlow := hd.le_head hn hused
    have hlive : ∀ p, p < pos + len → d.Live (.data n (p / blockSize)) :=
      fun p hp ↦ ⟨hn, hused, Nat.div_le_div_right (by omega)⟩
    have hinj := hd.injOn_locate hn hused hend
    have hlocate : ∀ p, pos ≤ p → p < pos + len →
        locate ((d.grow n newSize rs).block (d.inode n).headPointerBlock.toNat) p =
          locate (d.block (d.inode n).headPointerBlock.toNat) p := by
      intro p _ hp
      have hentry := (hlive p hp).2.2
      rw [block_grow_head newSize rs hd hn hused, locate, locate,
        entry_setEntries_of_lt _ _ (by omega)]
    rw [store_congr hinj hlocate fun _ _ ↦ rfl]
    apply eq_store hinj
    · intro p hp hlt
      have hne : d.blockOf (.data n (p / blockSize)) ≠ (e.inode n).headPointerBlock.toNat := by
        rw [hinode]
        exact hd.dataBlock_ne_head hn hused (hlive p hlt)
      have hblock := block_grow_of_ne newSize rs hn (hd.le_blockOf _ (hlive p hlt)) hne
      change byteAt ((e.grow n newSize rs).block (d.blockOf (.data n (p / blockSize)))) _ = _
      rw [hblock]
      change e.bytes (locate (d.block (d.inode n).headPointerBlock.toNat) p) = _
      rw [he, store_loc hinj hp hlt]
    · rintro ⟨b, o⟩ hmiss
      have hsmall : n / 128 < 8 := by
        simp only [maxFiles] at hn
        omega
      have hkeep : ∀ b < 9, e.block b = d.block b :=
        fun b hb ↦ block_of_store_of_lt hd hn hused hend he hb
      simp only [bytes]
      by_cases hb : b = n / 128
      · rw [hb, block_grow_inode hn, block_grow_inode hn, hkeep _ (by omega)]
      by_cases hb' : b = (d.inode n).headPointerBlock.toNat
      · have hhead := block_grow_head newSize rs (hsame.consistent hd) hn
          (by rw [hinode]; exact hused)
        rw [hinode, hsame.pointers n hn hused] at hhead
        rw [hb', hhead, block_grow_head newSize rs hd hn hused]
      rw [block_grow_other hb (by rw [hinode]; exact hb'), block_grow_other hb hb']
      by_cases h8 : b = 8
      · rw [h8, block_eight_markBlocks (hkeep 8 (by omega))]
      · rw [block_markBlocks_of_ne _ _ h8, block_markBlocks_of_ne _ _ h8]
        change e.bytes (b, o) = d.bytes (b, o)
        rw [he, store_of_forall_ne hmiss]
  · rw [if_neg hgrows, if_neg hgrows]
    exact he

/-! ## Two writes -/

section Rest

variable {v : Disk} {toPos howMany : UInt64} {buffer : ℕ → UInt8}
variable (hv : d.AfterWrite v n howMany toPos buffer xs) (hd : d.Consistent) (hn : n < maxFiles)
  (hused : (d.inode n).used) (hend : toPos.toNat + howMany.toNat < 512 * blockSize)
  {newSize : ℕ} (hle : toPos.toNat + howMany.toNat ≤ newSize)
include hv hd hn hused hend hle

theorem AfterWrite.growth_add :
    d.growth n (toPos + howMany).toNat + v.growth n newSize = d.growth n newSize := by
  have hdiv := Nat.div_le_div_right (c := blockSize) hle
  rw [growth, growth, growth, hv.size hd hn hused hend, (window_arith hend).1]
  rcases Nat.le_total (d.inode n).size.toNat (toPos.toNat + howMany.toNat) with h | h
  · have hdiv' := Nat.div_le_div_right (c := blockSize) h
    rw [max_eq_right h]
    omega
  · have hdiv' := Nat.div_le_div_right (c := blockSize) h
    rw [max_eq_left h]
    omega

theorem AfterWrite.takeFree_append
    (hys : takeFree 9 bitmapBits (v.growth n newSize) v.marked = some ys) :
    takeFree 9 bitmapBits (d.growth n newSize) d.marked = some (xs ++ ys) := by
  rw [hv.marked hd hn hused hend] at hys
  have htake := takeFree_add hv.taken hys
  rwa [hv.growth_add hd hn hused hend hle] at htake

theorem AfterWrite.takeFree_rest
    (hrs : takeFree 9 bitmapBits (d.growth n newSize) d.marked = some rs) :
    ∃ ys, takeFree 9 bitmapBits (v.growth n newSize) v.marked = some ys ∧
      rs = xs ++ ys := by
  rw [← hv.growth_add hd hn hused hend hle] at hrs
  obtain ⟨xs', ys, hxs, hys, rfl⟩ := takeFree_split hrs
  rw [hv.taken, Option.some.injEq] at hxs
  subst hxs
  exact ⟨ys, by rw [hv.marked hd hn hused hend]; exact hys, rfl⟩

end Rest

/-- Two consecutive writes leave the disk that one write of both parts leaves. -/
theorem AfterWrite.append {u v : Disk} {toPos howMany more : UInt64}
    {buffer buffer₁ buffer₂ : ℕ → UInt8} (hd : d.Consistent) (hn : n < maxFiles)
    (hused : (d.inode n).used)
    (hend : toPos.toNat + howMany.toNat + more.toNat < 512 * blockSize)
    (hfirst : ∀ i < howMany.toNat, buffer i = buffer₁ i)
    (hsecond : ∀ i < more.toNat, buffer (howMany.toNat + i) = buffer₂ i)
    (hv : d.AfterWrite v n howMany toPos buffer₁ xs)
    (he : v.AfterWrite e n more (toPos + howMany) buffer₂ ys)
    (hu : d.AfterWrite u n (howMany + more) toPos buffer rs) : e = u := by
  have hsum : (toPos + howMany).toNat = toPos.toNat + howMany.toNat :=
    (window_arith (by omega)).1
  have hlen : (howMany + more).toNat = howMany.toNat + more.toNat := by
    rw [UInt64.toNat_add]
    simp only [blockSize] at hend
    omega
  have hassoc : toPos + howMany + more = toPos + (howMany + more) := UInt64.add_assoc ..
  have htotal : (toPos + (howMany + more)).toNat = toPos.toNat + howMany.toNat + more.toNat := by
    rw [(window_arith (by rw [hlen]; omega)).1, hlen, Nat.add_assoc]
  have hlimit : toPos.toNat + howMany.toNat < 512 * blockSize := by omega
  have hvsame := hv.sameMetadata hd hn hused hlimit
  have hvinode := hvsame.inode n hn
  -- the two writes take the blocks that the one write takes
  have hys := he.taken
  rw [hassoc] at hys
  have hrs : rs = xs ++ ys := by
    have htake := hv.takeFree_append hd hn hused hlimit (by omega) hys
    rw [hu.taken] at htake
    exact Option.some.inj htake
  subst hrs
  have hlength : ys.length = (d.resize n (toPos + howMany) xs).growth n
      (toPos + (howMany + more)).toNat := by
    rw [takeFree_length hys, growth, hvinode, growth]
  have hresize : (d.resize n (toPos + howMany) xs).resize n (toPos + (howMany + more)) ys =
      d.resize n (toPos + (howMany + more)) (xs ++ ys) :=
    resize_resize hd hn hused (by rw [hsum]; exact hlimit) (by omega) hv.taken hv.lt_numBlocks
      hlength
  -- the data of the first write commutes with the growth of the second
  have hmiddle := bytes_resize_of_store (toPos + (howMany + more)) ys
    (hv.consistent_resize hd hn hused hlimit) hn (AfterWrite.used_resize hd hn hused)
    (AfterWrite.le_size_resize hd hn hused hlimit) (hv.bytes_eq hd hn hused)
  have hhead₁ := headPointerBlock_resize (toPos + howMany) xs hd hn hused
  have hhead₂ := headPointerBlock_resize (toPos + (howMany + more)) (xs ++ ys) hd hn hused
  have hbytes := he.bytes
  have hbytes' := hu.bytes
  rw [hresize, hhead₁] at hmiddle
  rw [hassoc, hvinode, hhead₁, hsum] at hbytes
  rw [hlen] at hbytes'
  have hall : toPos.toNat + (howMany + more).toNat < 512 * blockSize := by
    rw [hlen]
    omega
  have hd₂ := hu.consistent_resize hd hn hused hall
  have hused₂ : ((d.resize n (toPos + (howMany + more)) (xs ++ ys)).inode n).used :=
    AfterWrite.used_resize hd hn hused
  have hle₂ : toPos.toNat + (howMany + more).toNat ≤
      ((d.resize n (toPos + (howMany + more)) (xs ++ ys)).inode n).size.toNat :=
    AfterWrite.le_size_resize hd hn hused hall
  generalize d.resize n (toPos + (howMany + more)) (xs ++ ys) = grown at *
  rw [hlen] at hle₂
  have hpointers : (v.resize n (toPos + (howMany + more)) ys).block
      (d.inode n).headPointerBlock.toNat = grown.block (d.inode n).headPointerBlock.toNat := by
    rw [← hhead₂] at hmiddle ⊢
    exact (sameMetadata_of_store hd₂ hn hused₂ (by omega) hmiddle).pointers n hn hused₂
  have hinj : Set.InjOn (locate (grown.block (d.inode n).headPointerBlock.toNat))
      (Set.Ico toPos.toNat (toPos.toNat + (howMany.toNat + more.toNat))) := by
    rw [← hhead₂]
    exact hd₂.injOn_locate hn hused₂ hle₂
  apply ext_bytes
  have hfirst' : ∀ i < howMany.toNat, buffer₁ i = buffer i := fun i hi ↦ (hfirst i hi).symm
  have hsecond' : ∀ i < more.toNat, buffer₂ i = buffer (howMany.toNat + i) :=
    fun i hi ↦ (hsecond i hi).symm
  rw [hbytes, hpointers, hmiddle, hbytes', ← store_append hinj,
    store_congr (hinj.mono (Set.Ico_subset_Ico_right (by omega))) (fun _ _ _ ↦ rfl) hfirst',
    store_congr (hinj.mono (Set.Ico_subset_Ico (by omega) (by omega))) (fun _ _ _ ↦ rfl) hsecond']

end Disk

end OsProjects.Filesystem
