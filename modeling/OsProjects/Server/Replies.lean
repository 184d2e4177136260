import OsProjects.Server.ClientSteps

/-!
# Replies

A client that is sent a reply has bytes in its buffer and in its file that have
not been sent.  Neither driver loses, repeats or reorders any of them, however
the writes are cut.
-/

namespace OsProjects.Server

open Library.Program Library.Bytes

def Client.unsent (c : Client) : List UInt8 :=
  bytesAt c.buffer c.nwritten.toNat c.ntowrite.toNat ++ c.file.elim [] File.rest

def Event.IsTransfer : Event → Prop
  | .write pos count result => InBuffer pos count ∧ 0 ≤ result
  | .fread count _ => InBuffer 0 count
  | _ => False

/-- From `s` to `t` nothing but transfers has been done, and the bytes that have
been sent are the first of those that were to be sent. -/
structure Sending (s t : Connection) : Prop where
  socket : t.client.socket = s.client.socket
  file : t.client.file.isSome = s.client.file.isSome
  inBuffer : InBuffer t.client.nwritten t.client.ntowrite
  stream : ∃ bytes, t.sent = s.sent ++ bytes ∧ bytes ++ t.client.unsent = s.client.unsent
  trace : ∃ events, t.trace = events ++ s.trace ∧ ∀ e ∈ events, e.IsTransfer

section Sending

variable {s t u : Connection}

theorem Sending.refl (h : InBuffer s.client.nwritten s.client.ntowrite) : Sending s s :=
  ⟨rfl, rfl, h, ⟨[], by simp, rfl⟩, [], rfl, by simp⟩

theorem Sending.trans (h : Sending s t) (h' : Sending t u) : Sending s u := by
  obtain ⟨events, htrace, hevents⟩ := h.trace
  obtain ⟨events', htrace', hevents'⟩ := h'.trace
  obtain ⟨bytes, hsent, hunsent⟩ := h.stream
  obtain ⟨bytes', hsent', hunsent'⟩ := h'.stream
  refine ⟨h'.socket.trans h.socket, h'.file.trans h.file, h'.inBuffer, ⟨bytes ++ bytes', ?_, ?_⟩,
    events' ++ events, by rw [htrace', htrace, List.append_assoc], fun e he ↦ ?_⟩
  · rw [hsent', hsent, List.append_assoc]
  · rw [List.append_assoc, hunsent', hunsent]
  rcases List.mem_append.mp he with he | he
  · exact hevents' e he
  · exact hevents e he

theorem Sending.wrote {result : ℤ} (h : InBuffer s.client.nwritten s.client.ntowrite)
    (hresult : 0 ≤ result) (hle : result ≤ s.client.ntowrite) : Sending s (s.wrote result) := by
  obtain ⟨hpos, hcount, hbound⟩ := h
  have hnext : InBuffer (s.client.nwritten + result) (s.client.ntowrite - result) :=
    ⟨by omega, by omega, by omega⟩
  refine ⟨rfl, rfl, hnext, ⟨_, rfl, ?_⟩, [.write s.client.nwritten s.client.ntowrite result], rfl,
    ?_⟩
  · have hcount' : s.client.ntowrite.toNat =
        result.toNat + (s.client.ntowrite - result).toNat := by omega
    have hpos' : (s.client.nwritten + result).toNat = s.client.nwritten.toNat + result.toNat := by
      omega
    simp only [Client.unsent, Connection.wrote_client]
    rw [hcount', bytesAt_add, hpos']
    simp only [List.append_assoc]
  · simpa [Event.IsTransfer] using ⟨⟨hpos, hcount, hbound⟩, hresult⟩

variable {file : File} {n : ℕ}

theorem unsent_loaded (hn : n ≤ bufferSize) (hle : n ≤ file.rest.length) :
    (s.loaded file n).client.unsent = file.rest := by
  have hlength : (file.rest.take n).length = n := by
    simpa using hle
  have hcopied : bytesAt (putBytes s.client.buffer 0 (file.rest.take n)) 0 n =
      file.rest.take n := by
    simpa only [hlength] using bytesAt_putBytes s.client.buffer (hlength.trans_le hn)
  simp only [Client.unsent, Connection.loaded_client, Option.elim_some, Int.toNat_natCast,
    Int.toNat_zero]
  rw [hcopied, List.take_append_drop]

theorem Sending.loaded (hfile : s.client.file = some file) (hpending : s.client.ntowrite = 0)
    (hn : n ≤ bufferSize) (hle : n ≤ file.rest.length) : Sending s (s.loaded file n) := by
  have hnext : InBuffer 0 n := ⟨by omega, by omega, by omega⟩
  refine ⟨rfl, ?_, hnext, ⟨[], by simp, ?_⟩, [.fread bufferSize n], rfl, ?_⟩
  · rw [hfile]
    rfl
  · rw [List.nil_append, unsent_loaded hn hle, Client.unsent, hpending, hfile]
    rfl
  · simp [Event.IsTransfer, InBuffer]

end Sending

/-! ## `flush_buffer` -/

def Flushing (s t : Connection) : Prop := Sending s t ∧ t.client.file = s.client.file

section Flush

variable {env : Environment} {s : Connection} {fuel : ℕ}

theorem run_flushBody (env : Environment) (h : InBuffer s.client.nwritten s.client.ntowrite) :
    (s.client.ntowrite = 0 ∧ (flushBody env ()).run s = .ok (.inr 1) s) ∨
    (¬ env.Reliable s.client.socket ∧ (flushBody env ()).run s =
      .ok (.inr 0) (s.log (.write s.client.nwritten s.client.ntowrite (-1)))) ∨
    ∃ result, 0 ≤ result ∧ result ≤ s.client.ntowrite ∧
      ((∀ i k, env.write i = some k → 0 < k) → 0 < result) ∧
      (flushBody env ()).run s = .ok (.inl ()) (s.wrote result) := by
  have hntowrite := h.2.1
  rw [flushBody, run_bind_of_ok (EStateM.run_get s)]
  by_cases hpending : s.client.ntowrite > 0
  · obtain ⟨result, hwrite, hle, hresult, hprogress⟩ := run_write env s h
    rw [if_pos hpending, run_bind_of_ok hwrite]
    by_cases hfailed : result < 0
    · obtain rfl : result = -1 := by omega
      have hunreliable := (hresult.resolve_right fun h ↦ absurd h.1 (by decide)).2
      refine .inr (.inl ⟨hunreliable, ?_⟩)
      rw [if_pos hfailed, show (-1 : ℤ).toNat = 0 from rfl, bytesAt_zero, Connection.send_nil]
      rfl
    · refine .inr (.inr ⟨result, by omega, hle, fun hpos ↦ ?_, ?_⟩)
      · have hne := hprogress hpos hpending
        omega
      · rw [if_neg hfailed]
        rfl
  · refine .inl ⟨by omega, ?_⟩
    rw [if_neg hpending]
    rfl

/-- `flush_buffer` sends the bytes in the buffer in order, and reports if it
could not send all. -/
theorem flushBuffer_ends (h : InBuffer s.client.nwritten s.client.ntowrite) :
    Ends (flushBuffer env fuel) s
      (fun result t ↦ (result = 1 ∧ Flushing s t ∧ t.client.ntowrite = 0) ∨
        result = 0 ∧ ∃ u, Flushing s u ∧ ¬ env.Reliable u.client.socket ∧
          t = u.log (.write u.client.nwritten u.client.ntowrite (-1)))
      (fun e t ↦ e = .running ∧ Flushing s t) := by
  refine Ends.whileLoop (I := fun _ t ↦ Flushing s t) (fun _ t ht ↦ ?_) (fun _ t ht ↦ ⟨rfl, ht⟩)
    ⟨.refl h, rfl⟩
  obtain ⟨hsending, hfile⟩ := ht
  rcases run_flushBody env hsending.inBuffer with ⟨hzero, hrun⟩ | ⟨hunreliable, hrun⟩ |
    ⟨result, hresult, hle, -, hrun⟩
  · exact (ends_iff_of_ok hrun).mpr (.inl ⟨rfl, ⟨hsending, hfile⟩, hzero⟩)
  · exact (ends_iff_of_ok hrun).mpr (.inr ⟨rfl, t, ⟨hsending, hfile⟩, hunreliable, rfl⟩)
  · exact (ends_iff_of_ok hrun).mpr
      ⟨hsending.trans (.wrote hsending.inBuffer hresult hle), hfile⟩

theorem flushBuffer_returns (hwrite : ∀ i k, env.write i = some k → 0 < k)
    (h : InBuffer s.client.nwritten s.client.ntowrite) (hfuel : bufferSize < fuel) :
    Returns (flushBuffer env fuel) s fun _ _ ↦ True := by
  have hbound := h.2.2
  have hpos := h.1
  refine Returns.whileLoop (I := fun _ t ↦ Flushing s t) (fun _ t ↦ t.client.ntowrite.toNat)
    (fun _ t ht ↦ ?_) ⟨.refl h, rfl⟩ (by omega)
  obtain ⟨hsending, hfile⟩ := ht
  rcases run_flushBody env hsending.inBuffer with ⟨-, hrun⟩ | ⟨-, hrun⟩ |
    ⟨result, hresult, hle, hprogress, hrun⟩
  · exact .of_run hrun trivial
  · exact .of_run hrun trivial
  · have hlt := hprogress hwrite
    refine .of_run hrun ⟨⟨hsending.trans (.wrote hsending.inBuffer hresult hle), hfile⟩, ?_⟩
    simp only [Connection.wrote_client]
    omega

end Flush

/-! ## `write_reply` -/

/-- The client was given up when a write failed. -/
def Abandoned (env : Environment) (s t : Connection) : Prop :=
  ∃ u, Sending s u ∧ ¬ env.Reliable u.client.socket ∧
    t = (u.log (.write u.client.nwritten u.client.ntowrite (-1))).giveUp

/-- Between two chunks of the file nothing is left in the buffer.  After a short
chunk nothing is left of the file either, if the environment reads files to
their ends. -/
structure Chunked (env : Environment) (s : Connection) (readResult : ℤ) (t : Connection) :
    Prop where
  sending : Sending s t
  flushed : t.client.ntowrite = 0
  file : ∃ file, t.client.file = some file ∧
    ((∀ i, bufferSize ≤ env.fread i) → readResult ≠ bufferSize → file.rest = [])

/-- A bound for the iterations of the loop of `write_reply`. -/
def chunksLeft (readResult : ℤ) (t : Connection) : ℕ :=
  (t.client.file.elim [] File.rest).length + if readResult = bufferSize then 1 else 0

section Write

variable {env : Environment} {s t : Connection} {fuel : ℕ} {readResult : ℤ}

theorem run_sendFileBody_of_ne (h : readResult ≠ bufferSize) :
    (sendFileBody env fuel readResult).run t = .ok (.inr none) t := by
  rw [sendFileBody, if_neg h]
  rfl

theorem run_sendFileBody (h : Chunked env s bufferSize t) : ∃ n file,
    t.client.file = some file ∧ n ≤ file.rest.length ∧ Sending s (t.loaded file n) ∧
    ((∀ i, bufferSize ≤ env.fread i) → (n : ℤ) ≠ bufferSize → file.rest.drop n = []) ∧
    (sendFileBody env fuel bufferSize).run t = (do
      if (← flushBuffer env fuel) = 0 then
        giveUp
        return .inr (some 0)
      else
        return .inl (n : ℤ) : CM (ℤ ⊕ Option ℤ)).run (t.loaded file n) := by
  obtain ⟨file, hfile, -⟩ := h.file
  obtain ⟨n, hread, hle, hlength, hend⟩ := run_fread env t hfile
  refine ⟨n, file, hfile, hlength, h.sending.trans (.loaded hfile h.flushed hle hlength),
    fun hfread hne ↦ ?_, ?_⟩
  · rw [hend hfread (by omega), List.drop_length]
  · rw [sendFileBody, if_pos rfl, run_bind_of_ok hread]
    rfl

theorem sendFileBody_ends (h : Chunked env s readResult t) :
    Ends (sendFileBody env fuel readResult) t
      (fun next u ↦ Sum.elim
        (fun readResult' ↦ Chunked env s readResult' u ∧
          chunksLeft readResult' u < chunksLeft readResult t)
        (fun result ↦ (result = none ∧ Chunked env s readResult u ∧ readResult ≠ bufferSize) ∨
          result = some 0 ∧ Abandoned env s u) next)
      (fun e u ↦ e = .running ∧ Sending s u) := by
  by_cases hfull : readResult = bufferSize
  · subst hfull
    obtain ⟨n, file, hfile, hle, hsending, hend, hrun⟩ := run_sendFileBody h
    refine .of_run_eq hrun ((flushBuffer_ends hsending.inBuffer).bind (fun result u hu ↦ ?_)
      fun e u hu ↦ ⟨hu.1, hsending.trans hu.2.1⟩)
    rcases hu with ⟨rfl, ⟨hflush, hfile'⟩, hflushed⟩ | ⟨rfl, v, ⟨hflush, -⟩, hunreliable, rfl⟩
    · have hfile'' : u.client.file = some ⟨file.rest.drop n⟩ := hfile'
      refine ⟨⟨hsending.trans hflush, hflushed, _, hfile'', fun hfread hne ↦ ?_⟩, ?_⟩
      · exact hend hfread hne
      · have hpos : 0 < bufferSize := by decide
        simp only [chunksLeft, hfile, hfile'', Option.elim_some, List.length_drop, if_true]
        split <;> omega
    · exact .inr ⟨rfl, v, hsending.trans hflush, hunreliable, rfl⟩
  · exact (ends_iff_of_ok (run_sendFileBody_of_ne hfull)).mpr (.inl ⟨rfl, h, hfull⟩)

theorem sendFile_ends (h : Chunked env s bufferSize t) :
    Ends (sendFile env fuel) t
      (fun result u ↦ (result = none ∧ ∃ readResult, Chunked env s readResult u ∧
          readResult ≠ bufferSize) ∨
        result = some 0 ∧ Abandoned env s u)
      (fun e u ↦ e = .running ∧ Sending s u) := by
  refine Ends.whileLoop (I := Chunked env s) (fun readResult u hu ↦ ?_)
    (fun _ u hu ↦ ⟨rfl, hu.sending⟩) h
  refine (sendFileBody_ends hu).mono (fun next v hv ↦ ?_) fun _ _ hE ↦ hE
  cases next with
  | inl readResult' => exact hv.1
  | inr result =>
      rcases hv with ⟨rfl, hchunked, hne⟩ | hfailed
      · exact .inl ⟨rfl, readResult, hchunked, hne⟩
      · exact .inr hfailed

theorem sendFile_returns (hwrite : ∀ i k, env.write i = some k → 0 < k)
    (h : Chunked env s bufferSize t) (hfuel : bufferSize < fuel)
    (hchunks : chunksLeft bufferSize t < fuel) :
    Returns (sendFile env fuel) t fun _ _ ↦ True := by
  refine Returns.whileLoop (I := Chunked env s) chunksLeft (fun readResult u hu ↦ ?_) h hchunks
  have hbody : Returns (sendFileBody env fuel readResult) u fun _ _ ↦ True := by
    by_cases hfull : readResult = bufferSize
    · subst hfull
      obtain ⟨n, file, -, -, hsending, -, hrun⟩ := run_sendFileBody hu
      refine .of_run_eq hrun
        ((flushBuffer_returns hwrite hsending.inBuffer hfuel).bind fun result v _ ↦ ?_)
      split
      · exact .bind_run (run_giveUp v) (.pure trivial)
      · exact .pure trivial
    · exact .of_run (run_sendFileBody_of_ne hfull) trivial
  refine (hbody.and_ends (sendFileBody_ends hu)).mono fun next v hv ↦ ?_
  cases next with
  | inl readResult' => exact hv.2
  | inr result => trivial

theorem chunked_of_flushed {file : File} (h : Sending s t) (hflushed : t.client.ntowrite = 0)
    (hfile : t.client.file = some file) : Chunked env s bufferSize t :=
  ⟨h, hflushed, file, hfile, fun _ hne ↦ absurd rfl hne⟩

/-- `write_reply` gives the client up when a write fails.  If none does, it
returns when the buffer and the file, if there is one, have been sent. -/
theorem writeReply_ends (h : InBuffer s.client.nwritten s.client.ntowrite) :
    Ends (writeReply env fuel) s
      (fun result t ↦ (result = 0 ∧ Abandoned env s t) ∨
        result = 1 ∧ ((Sending s t ∧ t.client.file = none ∧ t.client.ntowrite = 0) ∨
          ∃ u readResult, Chunked env s readResult u ∧ readResult ≠ bufferSize ∧
            t = u.log .fclose))
      (fun e t ↦ e = .running ∧ Sending s t) := by
  refine (flushBuffer_ends h).bind (fun result t ht ↦ ?_) fun e t ht ↦ ⟨ht.1, ht.2.1⟩
  rcases ht with ⟨rfl, ⟨hsending, -⟩, hflushed⟩ | ⟨rfl, u, ⟨hsending, -⟩, hunreliable, rfl⟩
  · rw [if_neg one_ne_zero, ends_get_bind]
    cases hfile : t.client.file with
    | none => exact .inr ⟨rfl, .inl ⟨hsending, hfile, hflushed⟩⟩
    | some file =>
        rw [Option.isSome_some, if_pos rfl]
        refine (sendFile_ends (chunked_of_flushed hsending hflushed hfile)).bind
          (fun result u hu ↦ ?_) fun _ _ hE ↦ hE
        rcases hu with ⟨rfl, readResult, hchunked, hne⟩ | ⟨rfl, hfailed⟩
        · exact .inr ⟨rfl, .inr ⟨u, readResult, hchunked, hne, rfl⟩⟩
        · exact .inl ⟨rfl, hfailed⟩
  · exact .inl ⟨rfl, u, hsending, hunreliable, rfl⟩

theorem writeReply_returns (hwrite : ∀ i k, env.write i = some k → 0 < k)
    (h : InBuffer s.client.nwritten s.client.ntowrite) (hfuel : bufferSize < fuel)
    (hchunks : chunksLeft bufferSize s < fuel) :
    Returns (writeReply env fuel) s fun _ _ ↦ True := by
  refine ((flushBuffer_returns hwrite h hfuel).and_ends (flushBuffer_ends h)).bind
    fun result t ht ↦ ?_
  rcases ht.2 with ⟨rfl, ⟨hsending, hfile'⟩, hflushed⟩ | ⟨rfl, u, -, -, rfl⟩
  · refine .bind_run (EStateM.run_get t) ?_
    cases hfile : t.client.file with
    | none => exact .pure trivial
    | some file =>
        have hchunks' : chunksLeft bufferSize t < fuel := by
          rwa [chunksLeft, hfile']
        refine (sendFile_returns hwrite (chunked_of_flushed hsending hflushed hfile) hfuel
          hchunks').bind fun result u _ ↦ ?_
        cases result with
        | none => exact .of_run rfl trivial
        | some result => exact .pure trivial
  · exact .of_run rfl trivial

end Write

end OsProjects.Server
