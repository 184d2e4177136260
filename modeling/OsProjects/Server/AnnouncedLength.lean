import OsProjects.Server.Delivery

/-!
# The announced length

The header of a 200 reply announces the size of the file as an `int`.  It is
the number of bytes that either driver sends after the header exactly for files of
less than 2 GiB.
-/

namespace OsProjects.Server

open Library.Program Library.Bytes

/-- The header that `switch_state` has left in the buffer of `t`. -/
def replyHeader (env : Environment) (t : Connection) : List UInt8 :=
  (env.header (t.trace.length - 1)).text

/-- How many bytes have been sent between `t` and `u` after the header. -/
def bodySent (env : Environment) (t u : Connection) : ℕ :=
  u.sent.length - t.sent.length - (replyHeader env t).length

section Announced

variable {env : Environment} {request : Request} {s t u : Connection} {file : File} {filesize : ℤ}

/-- What `obtain_file_size` has returned when the header is complete. -/
theorem Switch.filesize_eq (h : Switch env request s t)
    (hget : t.trace.head? = some (.get200 request filesize))
    (hstat : ∀ i, env.stat i = file.rest.length) :
    filesize = cInt file.rest.length := by
  cases h with
  | notFound => cases hget
  | forbidden => cases hget
  | found hfilesize =>
      rw [hstat] at hfilesize
      cases hget
      exact hfilesize

theorem bodySent_of_delivers (hfile : t.client.file = some file)
    (h : Delivers t u (replyHeader env t ++ t.client.file.elim [] File.rest))
    (hno : NoWriteError t u) : bodySent env t u = file.rest.length := by
  rw [bodySent, h hno, hfile, List.length_append, List.length_append, Option.elim_some]
  omega

/-- The announced length is the one that has been sent exactly for a file of less than
2 GiB, whichever driver sends the reply.  No write fails if the socket is open and no
`write` is answered with an error. -/
theorem announced_length_iff {env₁ env₂ : Environment}
    (hswitch : (switchState env request).run s = .ok () t)
    (hget : t.trace.head? = some (.get200 request filesize))
    (hfile : t.client.file = some file) (hstat : ∀ i, env.stat i = file.rest.length)
    (hread₁ : ∀ i, bufferSize ≤ env₁.fread i) (hread₂ : ∀ i, bufferSize ≤ env₂.fread i)
    (hwrite₁ : ∀ i k, env₁.write i = some k → 0 < k)
    (hwrite₂ : ∀ i k, env₂.write i = some k → 0 < k) :
    ∃ bound, ∀ fuel, bound < fuel →
      Returns (writeReply env₁ fuel) t (fun _ u ↦
        NoWriteError t u ∨ env₁.Reliable t.client.socket →
          (filesize = bodySent env t u ↔ file.rest.length < 2 ^ 31)) ∧
      (t.client.socket ≠ -1 → Returns (sendAll env₂ fuel) t fun _ u ↦
        NoWriteError t u ∨ env₂.Reliable t.client.socket →
          (filesize = bodySent env t u ↔ file.rest.length < 2 ^ 31)) := by
  obtain ⟨t', hrun, hstep⟩ := run_switchState env request s
  rw [hswitch] at hrun
  cases hrun
  have hexact {u : Connection} (h : Delivers t u t.client.unsent) (hno : NoWriteError t u) :
      filesize = bodySent env t u ↔ file.rest.length < 2 ^ 31 := by
    rw [hstep.unsent] at h
    rw [bodySent_of_delivers hfile h hno, hstep.filesize_eq hget hstat]
    exact cInt_eq_self_iff
  have hbuffer := hstep.inBuffer
  refine ⟨bufferSize + chunksLeft bufferSize t + callsLeft t, fun fuel hfuel ↦ ⟨?_, fun hsocket ↦ ?_⟩⟩
  · obtain ⟨result, u, hrun, hsent⟩ :=
      @writeReply_delivers env₁ t fuel hread₁ hwrite₁ hbuffer (by omega) (by omega)
    refine .of_run hrun fun hreply ↦ hexact hsent ?_
    rcases hreply with hno | hreliable
    · exact hno
    · exact (ends_iff_of_ok hrun).mp (writeReply_noWriteError hreliable hbuffer)
  · obtain ⟨result, u, hrun, hsent⟩ :=
      @sendAll_delivers env₂ t fuel hread₂ hwrite₂ hsocket hbuffer (by omega)
    refine .of_run hrun fun hreply ↦ hexact hsent ?_
    rcases hreply with hno | hreliable
    · exact hno
    · exact (ends_iff_of_ok hrun).mp (sendAll_noWriteError hread₂ hreliable hbuffer)

theorem announced_length_byteByByte : ∃ t,
    (switchState byteByByte ⟨"file", "HTTP/1.1"⟩).run (newConnection 5 fun _ ↦ 0) = .ok () t ∧
    ∃ bound, ∀ fuel, bound < fuel →
      Returns (writeReply byteByByte fuel) t (fun _ u ↦ bodySent byteByByte t u = 3) ∧
      Returns (sendAll byteByByte fuel) t fun _ u ↦ bodySent byteByByte t u = 3 := by
  have hread : ∀ i, bufferSize ≤ byteByByte.fread i := fun _ ↦ le_rfl
  refine ⟨_, rfl, ?_⟩
  obtain ⟨bound, hbound⟩ := @announced_length_iff byteByByte ⟨"file", "HTTP/1.1"⟩
    (newConnection 5 fun _ ↦ 0) _ ⟨[1, 2, 3]⟩ 3 byteByByte byteByByte rfl rfl rfl (fun _ ↦ rfl)
    hread hread byteByByte_progress byteByByte_progress
  have hthree {n : ℕ} (h : ((3 : ℤ) = n ↔ [(1 : UInt8), 2, 3].length < 2 ^ 31)) : n = 3 := by
    have hsame := h.mpr (by decide)
    omega
  refine ⟨bound, fun fuel hfuel ↦ ?_⟩
  obtain ⟨hblocking, hevents⟩ := hbound fuel hfuel
  exact ⟨hblocking.mono fun _ _ h ↦ hthree (h (.inr byteByByte_reliable)),
    (hevents (by decide)).mono fun _ _ h ↦ hthree (h (.inr byteByByte_reliable))⟩

end Announced

def twoGibibytes : Environment :=
  { byteByByte with fopen _ := some ⟨List.replicate 2147483648 0⟩, stat _ := 2147483648 }

/-- A negative length is announced for a file of 2 GiB, all of which is sent. -/
theorem announced_length_twoGibibytes : ∃ t,
    (switchState twoGibibytes ⟨"file", "HTTP/1.1"⟩).run (newConnection 5 fun _ ↦ 0) = .ok () t ∧
    t.trace.head? = some (.get200 ⟨"file", "HTTP/1.1"⟩ (-2147483648)) ∧
    ∃ fuel, Returns (sendAll twoGibibytes fuel) t fun _ u ↦
      NoWriteError t u ∧ bodySent twoGibibytes t u = 2147483648 := by
  have hread : ∀ i, bufferSize ≤ twoGibibytes.fread i := fun _ ↦ le_rfl
  have hwrite : ∀ i k, twoGibibytes.write i = some k → 0 < k := byteByByte_progress
  obtain ⟨t, hrun, hget, hfile, hreliable⟩ : ∃ t,
      (switchState twoGibibytes ⟨"file", "HTTP/1.1"⟩).run (newConnection 5 fun _ ↦ 0) = .ok () t ∧
      t.trace.head? = some (.get200 ⟨"file", "HTTP/1.1"⟩ (-2147483648)) ∧
      t.client.file = some ⟨List.replicate 2147483648 0⟩ ∧ twoGibibytes.Reliable t.client.socket :=
    ⟨_, rfl, rfl, rfl, by decide, fun _ ↦ Option.some_ne_none 1⟩
  obtain ⟨t', hrun', hstep⟩ := run_switchState twoGibibytes ⟨"file", "HTTP/1.1"⟩
    (newConnection 5 fun _ ↦ 0)
  rw [hrun] at hrun'
  cases hrun'
  have hbuffer := hstep.inBuffer
  have hdelivers : Returns (sendAll twoGibibytes (callsLeft t + 1)) t
      fun _ u ↦ Delivers t u t.client.unsent :=
    sendAll_delivers hread hwrite hreliable.connected hbuffer (Nat.lt_succ_self _)
  refine ⟨t, hrun, hget, callsLeft t + 1, ?_⟩
  refine (hdelivers.and_ends (sendAll_noWriteError hread hreliable hbuffer)).mono
    fun _ u ⟨hsent, hno⟩ ↦ ⟨hno, ?_⟩
  rw [hstep.unsent] at hsent
  rw [bodySent_of_delivers hfile hsent hno, List.length_replicate]

end OsProjects.Server
