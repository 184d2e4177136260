import OsProjects.Filesystem.Indices

/-!
# Reads past the end of a file

`ifile_read` compares the size with the end of the window modulo `2^64`, and
`pointers_read` truncates the block numbers to `int`.  Which reads are answered
as they should be depends on the size and the window only.
-/

namespace OsProjects.Filesystem

open Library.Program Library.Bytes

/-- Whatever the caller's buffer contains, `x` returns `0` after copying exactly
`len` bytes to it. -/
def Delivers (x : (ℕ → UInt8) → FS (ℤ × (ℕ → UInt8))) (w : World) (len : ℕ) : Prop :=
  ∃ src u, u.storage = w.storage ∧
    ∀ buffer, (x buffer).run w = .ok (0, copyOver buffer 0 len src) u

/-- The read returns `-1` and copies nothing if its window ends past the end of
the file, and delivers its bytes otherwise. -/
def RespectsEnd (w : World) (n howMany fromPos : UInt64) : Prop :=
  ((w.storage.inode n.toNat).size.toNat < fromPos.toNat + howMany.toNat →
      ∀ buffer, ∃ u, u.storage = w.storage ∧
        (ifileRead n buffer howMany fromPos).run w = .ok (-1, buffer) u) ∧
    (fromPos.toNat + howMany.toNat ≤ (w.storage.inode n.toNat).size.toNat →
      Delivers (fun buffer ↦ ifileRead n buffer howMany fromPos) w howMany.toNat)

theorem copyOver_copyOver {pos len next : ℕ} (hnext : next = pos + len) (dst : ℕ → UInt8)
    (more : ℕ) (src src' : ℕ → UInt8) :
    copyOver (copyOver dst pos len src) next more src' =
      copyOver dst pos (len + more) fun i ↦ if i < len then src i else src' (i - len) := by
  subst hnext
  funext i
  simp only [copyOver]
  by_cases hin : pos + len ≤ i ∧ i < pos + len + more
  · rw [if_pos hin, if_pos (by omega), if_neg (by omega)]
    congr 1
    omega
  · rw [if_neg hin]
    by_cases hfirst : pos ≤ i ∧ i < pos + len
    · rw [if_pos hfirst, if_pos (by omega), if_pos (by omega)]
    · rw [if_neg hfirst, if_neg (by omega)]

theorem Delivers.unique {x : (ℕ → UInt8) → FS (ℤ × (ℕ → UInt8))} {w : World} {len len' : ℕ}
    (h : Delivers x w len) (h' : Delivers x w len') : len = len' := by
  obtain ⟨src, u, -, hrun⟩ := h
  obtain ⟨src', u', -, hrun'⟩ := h'
  have hsame : ∀ buffer, copyOver buffer 0 len src = copyOver buffer 0 len' src' := by
    intro buffer
    have heq := hrun buffer
    rw [hrun' buffer] at heq
    exact (congrArg Prod.snd (EStateM.Result.ok.inj heq).1).symm
  -- a byte copied once only takes two values in different buffers
  by_contra hne
  wlog hlt : len < len' generalizing len len' src src' u u'
  · exact this src' u' hrun' src u hrun (fun b ↦ (hsame b).symm) (Ne.symm hne) (by omega)
  have hzero := congrFun (hsame fun _ ↦ 0) len
  have hone := congrFun (hsame fun _ ↦ 1) len
  simp only [copyOver] at hzero hone
  rw [if_neg (by omega), if_pos (by omega)] at hzero hone
  rw [← hzero] at hone
  exact absurd hone (by decide)

/-! ## Single steps -/

section Read

variable {pointers : Block} {howMany fromPos : UInt64}

theorem run_memcpyFromBlock {offset len : ℕ} (hfit : offset + len ≤ blockSize) (buffer : ℕ → UInt8)
    (position : ℕ) (block : Block) (w : World) :
    (memcpyFromBlock buffer position block offset len).run w =
      .ok (copyOver buffer position len fun i ↦ byteAt block (offset + i)) w := by
  rw [memcpyFromBlock, if_pos hfit]
  rfl

theorem run_pointersReadBody {i : ℕ} (hi : i < 512) (position : ℕ) (block : Block) (w : World) :
    ∃ block' src u, u.storage = w.storage ∧ ∀ buffer,
      (pointersReadBody pointers fromPos i (block, buffer, position)).run w =
        .ok (.yield (block', copyOver buffer position blockSize src, position + blockSize)) u := by
  have hindex := @run_indexEntry_natCast (fromPos.toNat + position) i w hi
  obtain ⟨code, block', hread⟩ := run_storageReadBlock_state (entry pointers i) block
    (w.advance w.storage 0 [.entry (fromPos.toNat + position) i])
  refine ⟨block', fun j ↦ byteAt block' (0 + j),
    w.advance w.storage 0 [.entry (fromPos.toNat + position) i], rfl, fun buffer ↦ ?_⟩
  rw [pointersReadBody, run_bind_of_ok hindex, run_bind_of_ok hread,
    run_bind_of_ok (run_memcpyFromBlock (Nat.zero_add blockSize).le buffer position block' _)]
  rfl

/-- The blocks between the first and the last one of a window. -/
theorem run_pointersReadLoop {first start count : ℕ} (hlast : first + 1 + start + count ≤ 512)
    (position : ℕ) (block : Block) (w : World) :
    ∃ block' src u, u.storage = w.storage ∧ ∀ buffer,
      (forLoop (fun k acc ↦ pointersReadBody pointers fromPos (first + 1 + k) acc) start count
        (block, buffer, position)).run w =
          .ok (block', copyOver buffer position (count * blockSize) src,
            position + count * blockSize) u := by
  induction count generalizing start position block w with
  | zero =>
      refine ⟨block, fun _ ↦ 0, w, rfl, fun buffer ↦ ?_⟩
      have hnothing : copyOver buffer position (0 * blockSize) (fun _ ↦ 0) = buffer := by
        funext i
        simp only [copyOver]
        rw [if_neg (by omega)]
      rw [hnothing, Nat.zero_mul]
      rfl
  | succ count ih =>
      obtain ⟨block', src, u, hu, hbody⟩ :=
        @run_pointersReadBody pointers fromPos (first + 1 + start) (by omega) position block w
      obtain ⟨block'', src', v, hv, hrest⟩ :=
        @ih (start + 1) (by omega) (position + blockSize) block' u
      refine ⟨block'', fun i ↦ if i < blockSize then src i else src' (i - blockSize), v, hv.trans hu,
        fun buffer ↦ ?_⟩
      have hindex : ((first + 1 + start : ℕ) : ℤ) = first + 1 + start := by push_cast; rfl
      have hstep := hbody buffer
      rw [hindex] at hstep
      have hlength : (count + 1) * blockSize = blockSize + count * blockSize := by
        rw [Nat.succ_mul, Nat.add_comm]
      have hcopied := copyOver_copyOver (Eq.refl (position + blockSize)) buffer (count * blockSize)
        src src'
      rw [forLoop, run_bind_of_ok hstep]
      simp only
      rw [hrest, hcopied, hlength, Nat.add_assoc]

theorem bounds_of_indexEntry {position i : ℕ} {index : ℤ} {w u : World}
    (h : (indexEntry position index).run w = .ok i u) : 0 ≤ index ∧ index < 512 := by
  obtain ⟨_, _, -, h⟩ := run_bind_eq_ok_iff.mp h
  split at h
  case isTrue hbounds => exact hbounds
  case isFalse => cases h

/-- A window whose block numbers agree is copied from one block. -/
theorem pointersRead_delivers_one {first : ℕ} (hfirst : cInt (fromPos.toNat / blockSize) = first)
    (hlast : cInt ((fromPos + howMany).toNat / blockSize) = first) (hlt : first < 512)
    (hfit : fromPos.toNat % blockSize + howMany.toNat ≤ blockSize) (w : World) :
    Delivers (fun buffer ↦ pointersRead pointers buffer howMany fromPos) w howMany.toNat := by
  have hindex := @run_indexEntry_natCast fromPos.toNat first (w.advance w.storage 1 []) hlt
  obtain ⟨code, block, hread⟩ := run_storageReadBlock_state (entry pointers first)
    (w.stack w.frames) ((w.advance w.storage 1 []).advance w.storage 0 [.entry fromPos.toNat first])
  refine ⟨fun i ↦ byteAt block (fromPos.toNat % blockSize + i),
    (w.advance w.storage 1 []).advance w.storage 0 [.entry fromPos.toNat first], rfl, fun buffer ↦ ?_⟩
  change (pointersRead pointers buffer howMany fromPos).run w = _
  rw [pointersRead, hfirst, hlast, run_bind_of_ok (run_automatic w), run_bind_of_ok hindex]
  refine (run_bind_of_ok hread).trans ?_
  simp only [if_true]
  exact run_bind_of_ok (run_memcpyFromBlock hfit buffer 0 block _)

/-- Otherwise the end of the first block, the blocks between and the beginning
of the last block are copied. -/
theorem pointersRead_delivers_more {first last : ℕ}
    (hfirst : cInt (fromPos.toNat / blockSize) = first)
    (hlast : cInt ((fromPos + howMany).toNat / blockSize) = last) (hne : first ≠ last)
    (hlt : first < 512) (hlt' : last < 512) (w : World) :
    Delivers (fun buffer ↦ pointersRead pointers buffer howMany fromPos) w
      (blockSize - fromPos.toNat % blockSize + (last - 1 - first) * blockSize +
        (fromPos + howMany).toNat % blockSize) := by
  have hoffset : fromPos.toNat % blockSize < blockSize := Nat.mod_lt _ (by decide)
  have hrest : (fromPos + howMany).toNat % blockSize < blockSize := Nat.mod_lt _ (by decide)
  have hcount : ((last : ℤ) - 1 - first).toNat = last - 1 - first := by omega
  have hindex := @run_indexEntry_natCast fromPos.toNat first (w.advance w.storage 1 []) hlt
  obtain ⟨code, block, hread⟩ := run_storageReadBlock_state (entry pointers first)
    (w.stack w.frames) ((w.advance w.storage 1 []).advance w.storage 0 [.entry fromPos.toNat first])
  obtain ⟨block', src, u, hu, hloop⟩ := @run_pointersReadLoop pointers fromPos first 0
    (last - 1 - first) (by omega) (blockSize - fromPos.toNat % blockSize) block
    ((w.advance w.storage 1 []).advance w.storage 0 [.entry fromPos.toNat first])
  have hindex' := @run_indexEntry_natCast (fromPos.toNat + howMany.toNat) last u hlt'
  obtain ⟨code', block'', hread'⟩ := run_storageReadBlock_state (entry pointers last) block'
    (u.advance u.storage 0 [.entry (fromPos.toNat + howMany.toNat) last])
  refine ⟨fun i ↦ if i < blockSize - fromPos.toNat % blockSize + (last - 1 - first) * blockSize then
      if i < blockSize - fromPos.toNat % blockSize then byteAt block (fromPos.toNat % blockSize + i)
      else src (i - (blockSize - fromPos.toNat % blockSize))
    else byteAt block'' (0 +
      (i - (blockSize - fromPos.toNat % blockSize + (last - 1 - first) * blockSize))),
    u.advance u.storage 0 [.entry (fromPos.toNat + howMany.toNat) last], hu, fun buffer ↦ ?_⟩
  have hstart := run_memcpyFromBlock (show fromPos.toNat % blockSize +
    (blockSize - fromPos.toNat % blockSize) ≤ blockSize by omega) buffer 0 block
    ((w.advance w.storage 1 []).advance w.storage 0 [.entry fromPos.toNat first])
  change (pointersRead pointers buffer howMany fromPos).run w = _
  rw [pointersRead, hfirst, hlast, hcount, run_bind_of_ok (run_automatic w), run_bind_of_ok hindex]
  refine (run_bind_of_ok hread).trans ?_
  simp only
  rw [if_neg (by omega), run_bind_of_ok hstart, run_bind_of_ok (hloop _), run_bind_of_ok hindex',
    run_bind_of_ok hread', run_bind_of_ok (run_memcpyFromBlock (by omega) _ _ block'' _),
    copyOver_copyOver (Nat.zero_add _).symm, copyOver_copyOver (Nat.zero_add _).symm]
  rfl

/-- What a call that returns has accessed. -/
theorem bounds_of_pointersRead {w u : World} {buffer : ℕ → UInt8} {result : ℤ × (ℕ → UInt8)}
    (h : (pointersRead pointers buffer howMany fromPos).run w = .ok result u) :
    (0 ≤ cInt (fromPos.toNat / blockSize) ∧ cInt (fromPos.toNat / blockSize) < 512) ∧
      (cInt (fromPos.toNat / blockSize) = cInt ((fromPos + howMany).toNat / blockSize) →
        fromPos.toNat % blockSize + howMany.toNat ≤ blockSize) ∧
      (cInt (fromPos.toNat / blockSize) ≠ cInt ((fromPos + howMany).toNat / blockSize) →
        0 ≤ cInt ((fromPos + howMany).toNat / blockSize) ∧
          cInt ((fromPos + howMany).toNat / blockSize) < 512) := by
  obtain ⟨block, _, -, h⟩ := run_bind_eq_ok_iff.mp h
  obtain ⟨index, _, hindex, h⟩ := run_bind_eq_ok_iff.mp h
  obtain ⟨⟨code, block'⟩, _, -, h⟩ := run_bind_eq_ok_iff.mp h
  refine ⟨bounds_of_indexEntry hindex, fun hsame ↦ ?_, fun hne ↦ ?_⟩
  · simp only [if_pos hsame] at h
    obtain ⟨buffer', _, hcopy, -⟩ := run_bind_eq_ok_iff.mp h
    by_contra hfit
    rw [memcpyFromBlock, if_neg hfit] at hcopy
    cases hcopy
  · simp only [if_neg hne] at h
    obtain ⟨buffer', _, -, h⟩ := run_bind_eq_ok_iff.mp h
    obtain ⟨acc, _, -, h⟩ := run_bind_eq_ok_iff.mp h
    obtain ⟨index', _, hindex', -⟩ := run_bind_eq_ok_iff.mp h
    exact bounds_of_indexEntry hindex'

theorem lt_of_pointersRead_delivers (hend : fromPos.toNat + howMany.toNat < 2 ^ 64) {w : World}
    (h : Delivers (fun buffer ↦ pointersRead pointers buffer howMany fromPos) w howMany.toNat) :
    fromPos.toNat / blockSize % 2 ^ 32 +
      ((fromPos.toNat + howMany.toNat) / blockSize - fromPos.toNat / blockSize) < 512 := by
  have hsum : (fromPos + howMany).toNat = fromPos.toNat + howMany.toNat := by
    rw [UInt64.toNat_add, Nat.mod_eq_of_lt hend]
  have hsize : blockSize = 4096 := rfl
  obtain ⟨src, u, -, hrun⟩ := id h
  obtain ⟨⟨hlower, hupper⟩, hone, hmore⟩ := bounds_of_pointersRead (hrun fun _ ↦ 0)
  obtain ⟨first, hfirst⟩ := Int.eq_ofNat_of_zero_le hlower
  have hmod := (cInt_eq_natCast_iff (by omega)).mp hfirst
  by_cases hsame : cInt (fromPos.toNat / blockSize) = cInt ((fromPos + howMany).toNat / blockSize)
  · have hfit := hone hsame
    rw [hfirst, eq_comm, cInt_eq_natCast_iff (by omega)] at hsame
    rw [hsum] at hsame
    rw [hsize] at *
    omega
  · obtain ⟨hlower', hupper'⟩ := hmore hsame
    obtain ⟨last, hlast⟩ := Int.eq_ofNat_of_zero_le hlower'
    have hmod' := (cInt_eq_natCast_iff (by omega)).mp hlast
    have hlength := h.unique (pointersRead_delivers_more hfirst hlast
      (fun heq ↦ hsame (by rw [hfirst, hlast, heq])) (by omega) (by omega) w)
    rw [hsum] at hlength hmod'
    rw [hsize] at *
    omega

theorem pointersRead_delivers_of_lt (hend : fromPos.toNat + howMany.toNat < 2 ^ 64)
    (hwindow : fromPos.toNat / blockSize % 2 ^ 32 +
      ((fromPos.toNat + howMany.toNat) / blockSize - fromPos.toNat / blockSize) < 512) (w : World) :
    Delivers (fun buffer ↦ pointersRead pointers buffer howMany fromPos) w howMany.toNat := by
  have hsum : (fromPos + howMany).toNat = fromPos.toNat + howMany.toNat := by
    rw [UInt64.toNat_add, Nat.mod_eq_of_lt hend]
  have hsize : blockSize = 4096 := rfl
  have hfirst : cInt (fromPos.toNat / blockSize) = (fromPos.toNat / blockSize % 2 ^ 32 : ℕ) :=
    (cInt_eq_natCast_iff (by omega)).mpr rfl
  have hlast : cInt ((fromPos + howMany).toNat / blockSize) =
      (fromPos.toNat / blockSize % 2 ^ 32 +
        ((fromPos.toNat + howMany.toNat) / blockSize - fromPos.toNat / blockSize) : ℕ) := by
    rw [cInt_eq_natCast_iff (by omega), hsum]
    rw [hsize] at hwindow ⊢
    omega
  by_cases hsame : (fromPos.toNat + howMany.toNat) / blockSize = fromPos.toNat / blockSize
  · rw [hsame, Nat.sub_self, Nat.add_zero] at hlast
    refine pointersRead_delivers_one hfirst hlast (by omega) ?_ w
    rw [hsize] at *
    omega
  · have hne : fromPos.toNat / blockSize % 2 ^ 32 ≠ fromPos.toNat / blockSize % 2 ^ 32 +
        ((fromPos.toNat + howMany.toNat) / blockSize - fromPos.toNat / blockSize) := by
      rw [hsize] at *
      omega
    have hlength : blockSize - fromPos.toNat % blockSize + (fromPos.toNat / blockSize % 2 ^ 32 +
          ((fromPos.toNat + howMany.toNat) / blockSize - fromPos.toNat / blockSize) - 1 -
            fromPos.toNat / blockSize % 2 ^ 32) * blockSize +
        (fromPos + howMany).toNat % blockSize = howMany.toNat := by
      rw [hsum]
      rw [hsize] at *
      omega
    rw [← hlength]
    exact pointersRead_delivers_more hfirst hlast hne (by omega) hwindow w

/-- A window is delivered exactly if its blocks are among the first 512 when the
number of the first one is truncated. -/
theorem pointersRead_delivers_iff (hend : fromPos.toNat + howMany.toNat < 2 ^ 64) (w : World) :
    Delivers (fun buffer ↦ pointersRead pointers buffer howMany fromPos) w howMany.toNat ↔
      fromPos.toNat / blockSize % 2 ^ 32 +
        ((fromPos.toNat + howMany.toNat) / blockSize - fromPos.toNat / blockSize) < 512 :=
  ⟨lt_of_pointersRead_delivers hend, fun hwindow ↦ pointersRead_delivers_of_lt hend hwindow w⟩

end Read

/-! ## Whole calls -/

theorem pointersRead_code {pointers : Block} {howMany fromPos : UInt64} {buffer : ℕ → UInt8}
    {w u : World} {result : ℤ × (ℕ → UInt8)}
    (h : (pointersRead pointers buffer howMany fromPos).run w = .ok result u) : result.1 = 0 := by
  obtain ⟨block, _, -, h⟩ := run_bind_eq_ok_iff.mp h
  obtain ⟨index, _, -, h⟩ := run_bind_eq_ok_iff.mp h
  obtain ⟨⟨code, block'⟩, _, -, h⟩ := run_bind_eq_ok_iff.mp h
  by_cases hsame : cInt (fromPos.toNat / blockSize) = cInt ((fromPos + howMany).toNat / blockSize)
  · simp only [if_pos hsame] at h
    obtain ⟨buffer', _, -, h⟩ := run_bind_eq_ok_iff.mp h
    cases h
    rfl
  · simp only [if_neg hsame] at h
    obtain ⟨buffer', _, -, h⟩ := run_bind_eq_ok_iff.mp h
    obtain ⟨acc, _, -, h⟩ := run_bind_eq_ok_iff.mp h
    obtain ⟨index', _, -, h⟩ := run_bind_eq_ok_iff.mp h
    obtain ⟨⟨code', block''⟩, _, -, h⟩ := run_bind_eq_ok_iff.mp h
    obtain ⟨buffer'', _, -, h⟩ := run_bind_eq_ok_iff.mp h
    cases h
    rfl

section Call

variable {w : World} {n howMany fromPos : UInt64} (hw : w.Formatted)
  (hn : n.toNat / 128 < numBlocks)
include hw hn

/-- A read that is not refused delivers what `pointers_read` delivers. -/
theorem ifileRead_delivers_iff (haccept : ¬ (w.storage.inode n.toNat).size < fromPos + howMany) :
    ∃ pointers, Delivers (fun buffer ↦ ifileRead n buffer howMany fromPos) w howMany.toNat ↔
      Delivers (fun buffer ↦ pointersRead pointers buffer howMany fromPos)
        (w.advance w.storage 2 []) howMany.toNat := by
  obtain ⟨pointers, -, hread⟩ := run_ifileRead hw hn howMany fromPos
  simp only [if_neg haccept] at hread
  refine ⟨pointers, ?_⟩
  constructor
  · rintro ⟨src, u, hu, hrun⟩
    refine ⟨src, u, hu, fun buffer ↦ ?_⟩
    have hcall := hrun buffer
    rw [hread buffer] at hcall
    obtain ⟨⟨code, buffer'⟩, _, hpointers, hreturn⟩ := run_bind_eq_ok_iff.mp hcall
    have hcode := pointersRead_code hpointers
    cases hreturn
    rw [hpointers, ← hcode]
    rfl
  · rintro ⟨src, u, hu, hrun⟩
    refine ⟨src, u, hu, fun buffer ↦ ?_⟩
    change (ifileRead n buffer howMany fromPos).run w = _
    rw [hread buffer, run_bind_of_ok (hrun buffer)]
    rfl

end Call

/-- A read past the end of the file is refused exactly if its window also ends
past the end modulo `2^64`, and another read is answered exactly if its blocks
are among the first 512 when the number of the first one is truncated. -/
theorem respectsEnd_iff {w : World} (hw : Reachable w) {n : UInt64} (hn : n.toNat < maxFiles)
    (howMany fromPos : UInt64) :
    RespectsEnd w n howMany fromPos ↔
      ((w.storage.inode n.toNat).size.toNat < fromPos.toNat + howMany.toNat →
        (w.storage.inode n.toNat).size.toNat < (fromPos.toNat + howMany.toNat) % 2 ^ 64) ∧
      (fromPos.toNat + howMany.toNat ≤ (w.storage.inode n.toNat).size.toNat →
        fromPos.toNat / blockSize % 2 ^ 32 +
          ((fromPos.toNat + howMany.toNat) / blockSize - fromPos.toNat / blockSize) < 512) := by
  have hdiv := div_lt_numBlocks hn
  have hrefuse := @ifileRead_refuses_iff w hw.formatted n howMany fromPos (fun _ ↦ 0) hdiv
  have hwrap : (w.storage.inode n.toNat).size < fromPos + howMany ↔
      (w.storage.inode n.toNat).size.toNat < (fromPos.toNat + howMany.toNat) % 2 ^ 64 := by
    rw [UInt64.lt_iff_toNat_lt, UInt64.toNat_add]
  have hbound := (w.storage.inode n.toNat).size.toNat_lt
  refine and_congr (imp_congr_right fun hpast ↦ ?_) (imp_congr_right fun hinside ↦ ?_)
  · rw [← hwrap]
    constructor
    · intro h
      obtain ⟨u, -, hrun⟩ := h fun _ ↦ 0
      exact hrefuse.mp ⟨_, u, hrun⟩
    · intro hlt buffer
      obtain ⟨pointers, -, hread⟩ := run_ifileRead hw.formatted hdiv howMany fromPos
      exact ⟨w.advance w.storage 1 [], rfl, (hread buffer).trans (if_pos hlt)⟩
  · have haccept : ¬ (w.storage.inode n.toNat).size < fromPos + howMany := by
      rw [hwrap]
      omega
    obtain ⟨pointers, hpointers⟩ := ifileRead_delivers_iff hw.formatted hdiv haccept
    rw [hpointers]
    exact pointersRead_delivers_iff (by omega) _

theorem respectsEnd_iff_two_bytes : RespectsEnd freshFile 0 2 1 := by
  refine (respectsEnd_iff reachable_freshFile (by decide) 2 1).mpr ⟨fun _ ↦ ?_, fun hend ↦ ?_⟩
  · rw [UInt64.toNat_zero, inode_freshFile]
    decide
  · rw [UInt64.toNat_zero, inode_freshFile] at hend
    exact absurd hend (by decide)

/-- A read of one byte at position `2^64 - 1` of an empty file is not refused. -/
theorem last_position_not_refused :
    Reachable freshFile ∧ (freshFile.storage.inode 0).used = true ∧
      (freshFile.storage.inode 0).size = 0 ∧
        ¬ RespectsEnd freshFile 0 1 18446744073709551615 := by
  refine ⟨reachable_freshFile, by rw [inode_freshFile], by rw [inode_freshFile], fun h ↦ ?_⟩
  obtain ⟨u, -, hrun⟩ := h.1 (by rw [UInt64.toNat_zero, inode_freshFile]; decide) fun _ ↦ 0
  have hrefuse := (ifileRead_refuses_iff reachable_freshFile.formatted (by decide)).mp ⟨_, u, hrun⟩
  rw [UInt64.toNat_zero, inode_freshFile] at hrefuse
  exact absurd hrefuse (by decide)

end OsProjects.Filesystem
