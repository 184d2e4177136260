import OsProjects.Server.Replies

/-!
# Delivery

What `write_reply` sends, and what `continue_sending_reply` sends when it is
called until the client is finished, are the header and the file of the reply,
up to the first write that fails.  With an open socket and writes that are never
answered with an error none fails.
-/

namespace OsProjects.Server

open Library.Program Library.Bytes

def Event.IsWriteError : Event → Prop
  | .write _ _ result => result = -1
  | _ => False

/-- No write has failed since `s`. -/
def NoWriteError (s t : Connection) : Prop :=
  ∀ events, t.trace = events ++ s.trace → ∀ e ∈ events, ¬ e.IsWriteError

def SendsPrefix (s t : Connection) (stream : List UInt8) : Prop :=
  ∃ bytes, t.sent = s.sent ++ bytes ∧ bytes <+: stream

/-- From `s` to `t` exactly `stream` has been sent, unless a write has failed. -/
def Delivers (s t : Connection) (stream : List UInt8) : Prop :=
  NoWriteError s t → t.sent = s.sent ++ stream

section Blocking

variable {env : Environment} {s t u : Connection} {fuel : ℕ}

theorem Sending.sendsPrefix (h : Sending s t) : SendsPrefix s t s.client.unsent := by
  obtain ⟨bytes, hsent, hunsent⟩ := h.stream
  exact ⟨bytes, hsent, t.client.unsent, hunsent⟩

theorem Sending.delivers (h : Sending s t) (hflushed : t.client.ntowrite = 0)
    (hfile : t.client.file.elim [] File.rest = []) : t.sent = s.sent ++ s.client.unsent := by
  obtain ⟨bytes, hsent, hunsent⟩ := h.stream
  have hempty : t.client.unsent = [] := by
    rw [Client.unsent, hflushed, hfile]
    rfl
  rw [hsent, ← hunsent, hempty, List.append_nil]

theorem not_noWriteError_giveUp {pos count : ℤ} (h : s.trace <:+ t.trace) :
    ¬ NoWriteError s (t.log (.write pos count (-1))).giveUp := by
  obtain ⟨events, htrace⟩ := h
  intro hno
  refine hno (.close { t.client with status := .bad } :: .write pos count (-1) :: events) ?_
    (.write pos count (-1)) (by simp) rfl
  rw [Connection.giveUp_trace, Connection.log_trace, ← htrace]
  rfl

theorem Abandoned.not_noWriteError (h : Abandoned env s t) : ¬ NoWriteError s t := by
  obtain ⟨u, hsending, -, rfl⟩ := h
  obtain ⟨events, htrace, -⟩ := hsending.trace
  exact not_noWriteError_giveUp ⟨events, htrace.symm⟩

theorem writeReply_sendsPrefix (h : InBuffer s.client.nwritten s.client.ntowrite) :
    SendsPrefix s (finalState ((writeReply env fuel).run s)) s.client.unsent := by
  refine Ends.finalState ((writeReply_ends h).mono (fun result t ht ↦ ?_)
    fun e t ht ↦ ht.2.sendsPrefix)
  rcases ht with ⟨-, u, hsending, -, rfl⟩ | ⟨-, ⟨hsending, -⟩ | ⟨u, _, hchunked, -, rfl⟩⟩
  · exact hsending.sendsPrefix
  · exact hsending.sendsPrefix
  · exact hchunked.sending.sendsPrefix

theorem writeReply_delivers (hread : ∀ i, bufferSize ≤ env.fread i)
    (hwrite : ∀ i k, env.write i = some k → 0 < k)
    (h : InBuffer s.client.nwritten s.client.ntowrite) (hfuel : bufferSize < fuel)
    (hchunks : chunksLeft bufferSize s < fuel) :
    Returns (writeReply env fuel) s fun _ t ↦ Delivers s t s.client.unsent := by
  refine ((writeReply_returns hwrite h hfuel hchunks).and_ends (writeReply_ends h)).mono
    fun result t ht ↦ ?_
  intro hno
  rcases ht.2 with ⟨-, hfailed⟩ | ⟨-, ⟨hsending, hfile, hflushed⟩ |
    ⟨u, readResult, hchunked, hne, rfl⟩⟩
  · exact absurd hno hfailed.not_noWriteError
  · exact hsending.delivers hflushed (by rw [hfile]; rfl)
  · obtain ⟨file, hfile, hend⟩ := hchunked.file
    exact hchunked.sending.delivers hchunked.flushed (by rw [hfile]; exact hend hread hne)

theorem NoWriteError.of_events (events : List Event) (htrace : t.trace = events ++ s.trace)
    (hevents : ∀ e ∈ events, ¬ e.IsWriteError) : NoWriteError s t := by
  intro all hall
  obtain rfl : all = events := (List.append_left_inj s.trace).mp (hall.symm.trans htrace)
  exact hevents

theorem NoWriteError.trans (hfirst : NoWriteError s t) (hsecond : NoWriteError t u)
    (hbefore : s.trace <:+ t.trace) (hafter : t.trace <:+ u.trace) : NoWriteError s u := by
  obtain ⟨events, htrace⟩ := hbefore
  obtain ⟨later, hlater⟩ := hafter
  refine .of_events (later ++ events) ?_ fun e he ↦ ?_
  · rw [← hlater, ← htrace, List.append_assoc]
  rcases List.mem_append.mp he with he | he
  · exact hsecond later hlater.symm e he
  · exact hfirst events htrace.symm e he

theorem Sending.noWriteError (h : Sending s t) : NoWriteError s t := by
  obtain ⟨events, htrace, hevents⟩ := h.trace
  refine .of_events events htrace fun e he herror ↦ ?_
  have htransfer := hevents e he
  cases e with
  | write pos count result =>
      obtain ⟨-, hnonneg⟩ := htransfer
      have hfailed : result = -1 := herror
      omega
  | _ => exact herror

theorem writeReply_noWriteError (hreliable : env.Reliable s.client.socket)
    (h : InBuffer s.client.nwritten s.client.ntowrite) :
    Ends (writeReply env fuel) s (fun _ t ↦ NoWriteError s t) fun _ _ ↦ True := by
  refine (writeReply_ends h).mono (fun result t ht ↦ ?_) fun _ _ _ ↦ trivial
  rcases ht with ⟨-, u, hsending, hunreliable, -⟩ | ⟨-, ⟨hsending, -⟩ |
    ⟨u, _, hchunked, -, rfl⟩⟩
  · rw [hsending.socket] at hunreliable
    exact absurd hreliable hunreliable
  · exact hsending.noWriteError
  · have hclose : NoWriteError u (u.log .fclose) :=
      .of_events [.fclose] rfl (by simp [Event.IsWriteError])
    obtain ⟨events, htrace, -⟩ := hchunked.sending.trace
    exact hchunked.sending.noWriteError.trans hclose ⟨events, htrace.symm⟩ (List.suffix_cons ..)

/-- No write fails, and the reply is sent as it is. -/
theorem writeReply_sends (hread : ∀ i, bufferSize ≤ env.fread i)
    (hwrite : ∀ i k, env.write i = some k → 0 < k) (hreliable : env.Reliable s.client.socket)
    (h : InBuffer s.client.nwritten s.client.ntowrite) (hfuel : bufferSize < fuel)
    (hchunks : chunksLeft bufferSize s < fuel) :
    Returns (writeReply env fuel) s fun _ t ↦ t.sent = s.sent ++ s.client.unsent :=
  ((writeReply_delivers hread hwrite h hfuel hchunks).and_ends
    (writeReply_noWriteError hreliable h)).mono fun _ _ ⟨hsent, hno⟩ ↦ hsent hno

end Blocking

/-! ## The state machine -/

/-- While the client is not finished, what has been sent is the first part of
what was to be sent, and the rest is still there. -/
structure Driven (s t : Connection) : Prop where
  trace : s.trace <:+ t.trace
  inBuffer : t.client.socket ≠ -1 → InBuffer t.client.nwritten t.client.ntowrite
  stream : ∃ bytes, t.sent = s.sent ++ bytes ∧ bytes <+: s.client.unsent ∧
    (t.client.socket ≠ -1 → bytes ++ t.client.unsent = s.client.unsent) ∧
    (t.client.socket = -1 → NoWriteError s t → bytes = s.client.unsent)

/-- A bound for the calls of `continue_sending_reply` that are needed. -/
def callsLeft (t : Connection) : ℕ :=
  if t.client.socket = -1 then 0
  else 1 + t.client.ntowrite.toNat + t.client.file.elim 0 fun file ↦ 2 * file.rest.length + 1

section StateMachine

variable {env : Environment} {s t u : Connection} {fuel : ℕ}

theorem Driven.refl (hsocket : s.client.socket ≠ -1)
    (h : InBuffer s.client.nwritten s.client.ntowrite) : Driven s s :=
  ⟨List.suffix_rfl, fun _ ↦ h, [], by simp, List.nil_prefix, fun _ ↦ rfl,
    fun h ↦ absurd h hsocket⟩

theorem Driven.sending (h : Driven s t) (hsocket : t.client.socket ≠ -1) (hstep : Sending t u) :
    Driven s u := by
  obtain ⟨bytes, hsent, -, hunsent, -⟩ := h.stream
  obtain ⟨bytes', hsent', hunsent'⟩ := hstep.stream
  obtain ⟨events, htrace, -⟩ := hstep.trace
  have hstream : (bytes ++ bytes') ++ u.client.unsent = s.client.unsent := by
    rw [List.append_assoc, hunsent', hunsent hsocket]
  refine ⟨h.trace.trans ⟨events, htrace.symm⟩, fun _ ↦ hstep.inBuffer, bytes ++ bytes', ?_,
    ⟨_, hstream⟩, fun _ ↦ hstream, fun hclosed ↦ ?_⟩
  · rw [hsent', hsent, List.append_assoc]
  · exact absurd (hstep.socket.symm.trans hclosed) hsocket

theorem Driven.closing (h : Driven s t) (hsocket : t.client.socket ≠ -1)
    (htrace : t.trace <:+ u.trace) (hclosed : u.client.socket = -1) (hsent : u.sent = t.sent)
    (hall : NoWriteError s u → t.client.unsent = []) : Driven s u := by
  obtain ⟨bytes, hbytes, hprefix, hunsent, -⟩ := h.stream
  refine ⟨h.trace.trans htrace, fun hopen ↦ absurd hclosed hopen, bytes, hsent.trans hbytes,
    hprefix, fun hopen ↦ absurd hclosed hopen, fun _ hno ↦ ?_⟩
  rw [← hunsent hsocket, hall hno, List.append_nil]

/-- Nothing is left in the file that is closed. -/
theorem unsent_fclose {file : File} {n : ℕ} (h : n = file.rest.length) :
    (((t.loaded file n).log .fclose).update fun c ↦ { c with file := none }).client.unsent =
      (t.loaded file n).client.unsent := by
  have hdrop : file.rest.drop n = [] := by rw [h, List.drop_length]
  simp [Client.unsent, hdrop]

theorem Driven.step (h : Driven s t) (hsocket : t.client.socket ≠ -1)
    (hread : ∀ i, bufferSize ≤ env.fread i) (hstep : ReplyStep env t u) : Driven s u := by
  cases hstep with
  | wrote _ hpending hresult hle hprogress =>
      exact h.sending hsocket (.wrote (h.inBuffer hsocket) hresult hle)
  | failed hpending =>
      refine h.closing hsocket ?_ rfl rfl fun hno ↦ absurd hno (not_noWriteError_giveUp h.trace)
      exact (List.suffix_cons ..).trans (List.suffix_cons ..)
  | finished hpending hfile =>
      refine h.closing hsocket (List.suffix_cons ..) rfl rfl fun _ ↦ ?_
      rw [Client.unsent, hpending, hfile]
      rfl
  | loaded hpending hfile hle =>
      exact h.sending hsocket (.loaded hfile hpending le_rfl hle)
  | loadedLast hpending hfile hlt hle hend =>
      rename_i file n
      have hloaded := h.sending hsocket (.loaded hfile hpending hlt.le hle)
      refine ⟨hloaded.trace.trans (List.suffix_cons ..), hloaded.inBuffer, ?_⟩
      obtain ⟨bytes, hsent, hprefix, hrest, -⟩ := hloaded.stream
      refine ⟨bytes, hsent, hprefix, fun hopen ↦ ?_, fun hclosed ↦ absurd hclosed hsocket⟩
      rw [unsent_fclose (hend hread)]
      exact hrest hopen

theorem callsLeft_lt (h : InBuffer s.client.nwritten s.client.ntowrite)
    (hsocket : s.client.socket ≠ -1) (hwrite : ∀ i k, env.write i = some k → 0 < k)
    (hstep : ReplyStep env s t) : callsLeft t < callsLeft s := by
  have hntowrite := h.2.1
  have hpos : 0 < bufferSize := by decide
  cases hstep with
  | wrote _ hpending hresult hle hprogress =>
      have hne := hprogress hwrite
      simp only [callsLeft, Connection.wrote_client, hsocket, if_false]
      omega
  | failed hpending => simp [callsLeft, hsocket]
  | finished hpending hfile => simp [callsLeft, hsocket]
  | loaded hpending hfile hle =>
      simp only [callsLeft, Connection.loaded_client, hsocket, if_false, hpending, hfile,
        Option.elim_some, List.length_drop]
      omega
  | loadedLast hpending hfile hlt hle hend =>
      simp only [callsLeft, Connection.update_client, Connection.log_client,
        Connection.loaded_client, hsocket, if_false, hpending, hfile, Option.elim_some,
        Option.elim_none]
      omega

theorem run_sendAllBody_of_open (hsocket : t.client.socket ≠ -1)
    (hrun : (continueSendingReply env).run t = .ok () u) :
    (sendAllBody env ()).run t = .ok (.inl ()) u := by
  rw [sendAllBody, run_bind_of_ok (EStateM.run_get t), if_neg hsocket, run_bind_of_ok hrun]
  rfl

theorem run_sendAllBody (hsocket : t.client.socket ≠ -1)
    (h : InBuffer t.client.nwritten t.client.ntowrite) :
    ∃ u, (sendAllBody env ()).run t = .ok (.inl ()) u ∧ ReplyStep env t u := by
  obtain ⟨u, hrun, hstep⟩ := continueSendingReply_step env h
  exact ⟨u, run_sendAllBody_of_open hsocket hrun, hstep⟩

theorem run_sendAllBody_of_closed (hsocket : t.client.socket = -1) :
    (sendAllBody env ()).run t = .ok (.inr ()) t := by
  rw [sendAllBody, run_bind_of_ok (EStateM.run_get t), if_pos hsocket]
  rfl

theorem sendAll_ends (hread : ∀ i, bufferSize ≤ env.fread i) (hsocket : s.client.socket ≠ -1)
    (h : InBuffer s.client.nwritten s.client.ntowrite) :
    Ends (sendAll env fuel) s (fun _ t ↦ Driven s t ∧ t.client.socket = -1)
      (fun _ t ↦ Driven s t) := by
  refine Ends.whileLoop (I := fun _ t ↦ Driven s t) (E := fun _ t ↦ Driven s t)
    (fun _ t ht ↦ ?_) (fun _ t ht ↦ ht) (.refl hsocket h)
  by_cases hclosed : t.client.socket = -1
  · exact (ends_iff_of_ok (run_sendAllBody_of_closed hclosed)).mpr ⟨ht, hclosed⟩
  · obtain ⟨u, hrun, hstep⟩ := run_sendAllBody hclosed (ht.inBuffer hclosed)
    exact (ends_iff_of_ok hrun).mpr (ht.step hclosed hread hstep)

theorem sendAll_sendsPrefix (hread : ∀ i, bufferSize ≤ env.fread i)
    (h : InBuffer s.client.nwritten s.client.ntowrite) :
    SendsPrefix s (finalState ((sendAll env fuel).run s)) s.client.unsent := by
  by_cases hsocket : s.client.socket = -1
  · have hnothing : SendsPrefix s s s.client.unsent := ⟨[], by simp, List.nil_prefix⟩
    cases fuel with
    | zero => exact hnothing
    | succ fuel =>
        rw [sendAll, whileLoop, run_bind_of_ok (run_sendAllBody_of_closed hsocket)]
        exact hnothing
  · have hprefix {t : Connection} (ht : Driven s t) : SendsPrefix s t s.client.unsent := by
      obtain ⟨bytes, hsent, hbytes, -⟩ := ht.stream
      exact ⟨bytes, hsent, hbytes⟩
    exact Ends.finalState ((sendAll_ends hread hsocket h).mono (fun _ t ht ↦ hprefix ht.1)
      fun _ t ht ↦ hprefix ht)

theorem sendAll_delivers (hread : ∀ i, bufferSize ≤ env.fread i)
    (hwrite : ∀ i k, env.write i = some k → 0 < k) (hsocket : s.client.socket ≠ -1)
    (h : InBuffer s.client.nwritten s.client.ntowrite) (hfuel : callsLeft s < fuel) :
    Returns (sendAll env fuel) s fun _ t ↦ Delivers s t s.client.unsent := by
  have hreturns : Returns (sendAll env fuel) s fun _ _ ↦ True := by
    refine Returns.whileLoop (I := fun _ t ↦ Driven s t) (fun _ t ↦ callsLeft t)
      (fun _ t ht ↦ ?_) (.refl hsocket h) hfuel
    by_cases hclosed : t.client.socket = -1
    · exact .of_run (run_sendAllBody_of_closed hclosed) trivial
    · obtain ⟨u, hrun, hstep⟩ := run_sendAllBody hclosed (ht.inBuffer hclosed)
      exact .of_run hrun ⟨ht.step hclosed hread hstep,
        callsLeft_lt (ht.inBuffer hclosed) hclosed hwrite hstep⟩
  refine (hreturns.and_ends (sendAll_ends hread hsocket h)).mono fun _ t ht hno ↦ ?_
  obtain ⟨-, hdriven, hclosed⟩ := ht
  obtain ⟨bytes, hsent, -, -, hall⟩ := hdriven.stream
  rw [hsent, hall hclosed hno]

theorem ReplyStep.trace_suffix (h : ReplyStep env s t) : s.trace <:+ t.trace := by
  cases h with
  | wrote => exact List.suffix_cons ..
  | failed => exact (List.suffix_cons ..).trans (List.suffix_cons ..)
  | finished => exact List.suffix_cons ..
  | loaded => exact List.suffix_cons ..
  | loadedLast => exact (List.suffix_cons ..).trans (List.suffix_cons ..)

theorem ReplyStep.noWriteError (h : ReplyStep env s t)
    (hreliable : env.Reliable s.client.socket)
    (hbuffer : InBuffer s.client.nwritten s.client.ntowrite) : NoWriteError s t := by
  cases h with
  | wrote _ _ hresult hle => exact (Sending.wrote hbuffer hresult hle).noWriteError
  | failed _ hunreliable => exact absurd hreliable hunreliable
  | finished => exact .of_events [.close s.client] rfl (by simp [Event.IsWriteError])
  | loaded hpending hfile hle =>
      exact (Sending.loaded hfile hpending le_rfl hle).noWriteError
  | @loadedLast file n =>
      exact .of_events [.fclose, .fread bufferSize n] rfl
        (by simp [Event.IsWriteError])

theorem sendAll_noWriteError (hread : ∀ i, bufferSize ≤ env.fread i)
    (hreliable : env.Reliable s.client.socket)
    (h : InBuffer s.client.nwritten s.client.ntowrite) :
    Ends (sendAll env fuel) s (fun _ t ↦ NoWriteError s t) fun _ _ ↦ True := by
  have hstart : NoWriteError s s := .of_events [] rfl (by simp)
  refine Ends.whileLoop (I := fun _ t ↦ Driven s t ∧ NoWriteError s t) (fun _ t ht ↦ ?_)
    (fun _ _ _ ↦ trivial) ⟨.refl hreliable.connected h, hstart⟩
  obtain ⟨hdriven, hno⟩ := ht
  by_cases hclosed : t.client.socket = -1
  · exact (ends_iff_of_ok (run_sendAllBody_of_closed hclosed)).mpr hno
  · have hbuffer := hdriven.inBuffer hclosed
    obtain ⟨u, hrun, hstep⟩ := run_sendAllBody hclosed hbuffer
    have hnext := hstep.noWriteError ⟨hclosed, hreliable.write⟩ hbuffer
    exact (ends_iff_of_ok hrun).mpr ⟨hdriven.step hclosed hread hstep,
      hno.trans hnext hdriven.trace hstep.trace_suffix⟩

theorem sendAll_sends (hread : ∀ i, bufferSize ≤ env.fread i)
    (hwrite : ∀ i k, env.write i = some k → 0 < k) (hreliable : env.Reliable s.client.socket)
    (h : InBuffer s.client.nwritten s.client.ntowrite) (hfuel : callsLeft s < fuel) :
    Returns (sendAll env fuel) s fun _ t ↦ t.sent = s.sent ++ s.client.unsent :=
  ((sendAll_delivers hread hwrite hreliable.connected h hfuel).and_ends
    (sendAll_noWriteError hread hreliable h)).mono fun _ _ ⟨hsent, hno⟩ ↦ hsent hno

end StateMachine

/-! ## After `switch_state` -/

theorem bytesAt_strcpy (b : Buffer bufferSize) (header : Header) :
    bytesAt (strcpy b header.text) 0 header.text.length = header.text := by
  have hlength : (header.text ++ [0]).length ≤ bufferSize := by
    simpa using Nat.succ_le_of_lt header.length_lt
  have hcopied := bytesAt_putBytes b hlength
  rw [List.length_append, List.length_singleton, bytesAt_add] at hcopied
  exact (List.append_inj hcopied (length_bytesAt ..)).1

theorem Client.unsent_reply (c : Client) (file : Option File) (status : Status)
    (header : Header) :
    (c.reply file status header).unsent = header.text ++ file.elim [] File.rest := by
  simp only [Client.unsent, Client.reply, Int.toNat_zero, Int.toNat_natCast, bytesAt_strcpy]

theorem Switch.unsent {env : Environment} {request : Request} {s t : Connection}
    (h : Switch env request s t) : t.client.unsent =
      (env.header (t.trace.length - 1)).text ++ t.client.file.elim [] File.rest := by
  cases h <;> exact Client.unsent_reply ..

/-- Both drivers send the same stream. -/
theorem drivers_send_reply {env env₁ env₂ : Environment} {request : Request} {s t : Connection}
    (hswitch : (switchState env request).run s = .ok () t)
    (hread₁ : ∀ i, bufferSize ≤ env₁.fread i) (hread₂ : ∀ i, bufferSize ≤ env₂.fread i)
    (hwrite₁ : ∀ i k, env₁.write i = some k → 0 < k)
    (hwrite₂ : ∀ i k, env₂.write i = some k → 0 < k) :
    ∃ stream, stream = (env.header (t.trace.length - 1)).text ++ t.client.file.elim [] File.rest ∧
      (∀ fuel, SendsPrefix t (finalState ((writeReply env₁ fuel).run t)) stream ∧
        SendsPrefix t (finalState ((sendAll env₂ fuel).run t)) stream) ∧
      ∃ bound, ∀ fuel, bound < fuel →
        Returns (writeReply env₁ fuel) t (fun _ u ↦ Delivers t u stream) ∧
        (t.client.socket ≠ -1 → Returns (sendAll env₂ fuel) t fun _ u ↦ Delivers t u stream) ∧
        (env₁.Reliable t.client.socket →
          Returns (writeReply env₁ fuel) t fun _ u ↦ u.sent = t.sent ++ stream) ∧
        (env₂.Reliable t.client.socket →
          Returns (sendAll env₂ fuel) t fun _ u ↦ u.sent = t.sent ++ stream) := by
  obtain ⟨t', hrun, hstep⟩ := run_switchState env request s
  rw [hswitch] at hrun
  cases hrun
  have hbuffer := hstep.inBuffer
  refine ⟨t.client.unsent, hstep.unsent, fun fuel ↦
    ⟨writeReply_sendsPrefix hbuffer, sendAll_sendsPrefix hread₂ hbuffer⟩,
    bufferSize + chunksLeft bufferSize t + callsLeft t, fun fuel hfuel ↦ ?_⟩
  refine ⟨?_, fun hsocket ↦ ?_, fun hreliable ↦ ?_, fun hreliable ↦ ?_⟩
  · exact writeReply_delivers hread₁ hwrite₁ hbuffer (by omega) (by omega)
  · exact sendAll_delivers hread₂ hwrite₂ hsocket hbuffer (by omega)
  · exact writeReply_sends hread₁ hwrite₁ hreliable hbuffer (by omega) (by omega)
  · exact sendAll_sends hread₂ hwrite₂ hreliable hbuffer (by omega)

/-- A request of one byte for a file of three, which is sent a byte at a time. -/
def byteByByte : Environment where
  read _ := some [71]
  headerComplete _ := true
  getFilename _ := (0, ⟨"file", "HTTP/1.1"⟩)
  access _ := 0
  fopen _ := some ⟨[1, 2, 3]⟩
  stat _ := 3
  header _ := ⟨[79, 75], by decide, by decide⟩
  fread _ := bufferSize
  write _ := some 1

theorem byteByByte_progress (i k : ℕ) (h : byteByByte.write i = some k) : 0 < k := by
  obtain rfl : 1 = k := Option.some.inj h
  exact Nat.zero_lt_one

theorem byteByByte_reliable : byteByByte.Reliable 5 :=
  ⟨by decide, fun _ ↦ Option.some_ne_none 1⟩

/-- One driver sends a byte at a time, the other three. -/
theorem drivers_send_reply_byteByByte : ∃ t,
    (switchState byteByByte ⟨"file", "HTTP/1.1"⟩).run (newConnection 5 fun _ ↦ 0) = .ok () t ∧
    ∃ bound, ∀ fuel, bound < fuel →
      Returns (writeReply byteByByte fuel) t (fun _ u ↦ u.sent = [79, 75, 1, 2, 3]) ∧
      Returns (sendAll { byteByByte with write := fun _ ↦ some 3 } fuel) t
        fun _ u ↦ u.sent = [79, 75, 1, 2, 3] := by
  have hread : ∀ i, bufferSize ≤ byteByByte.fread i := fun _ ↦ le_rfl
  refine ⟨_, rfl, ?_⟩
  obtain ⟨stream, rfl, -, bound, hbound⟩ := @drivers_send_reply byteByByte byteByByte
    { byteByByte with write := fun _ ↦ some 3 } ⟨"file", "HTTP/1.1"⟩ (newConnection 5 fun _ ↦ 0) _
    rfl hread hread byteByByte_progress fun i k h ↦ by
      obtain rfl : 3 = k := Option.some.inj h
      decide
  refine ⟨bound, fun fuel hfuel ↦ ?_⟩
  obtain ⟨-, -, hblocking, hevents⟩ := hbound fuel hfuel
  exact ⟨hblocking byteByByte_reliable, hevents ⟨by decide, fun _ ↦ Option.some_ne_none 3⟩⟩

end OsProjects.Server
