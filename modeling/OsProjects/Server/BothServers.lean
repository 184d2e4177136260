import OsProjects.Server.RequestReaders
import OsProjects.Server.Resources

/-!
# What the two servers send

A consumer serves a client with `read_request` and `write_reply`, the event loop with
`handle_client`.  The transfers of the reply may be of different sizes.  Unless a read fills
the buffer or a write fails, both send the same bytes.
-/

namespace OsProjects.Server

open Library.Program Library.Bytes

/-- The same answers, but for the sizes of the transfers of the reply. -/
def Environment.paced (env : Environment) (fread : ℕ → ℕ) (write : ℕ → Option ℕ) : Environment :=
  { env with fread := fread, write := write }

section HandleAll

variable (env : Environment)

/-- `handle_client` called until the socket is -1. -/
def handleAllBody : Unit → CM (Unit ⊕ Unit) := fun _ ↦ do
  if (← get).client.socket = -1 then
    return .inr ()
  else
    handleClient env
    return .inl ()

def handleAll (fuel : ℕ) : CM Unit := whileLoop .running (handleAllBody env) fuel ()

variable {env} {s t u : Connection} {fuel : ℕ} {fread' : ℕ → ℕ} {write' : ℕ → Option ℕ}

theorem run_handleAllBody (hsocket : s.client.socket ≠ -1)
    (hrun : (handleClient env).run s = .ok () t) :
    (handleAllBody env ()).run s = .ok (.inl ()) t := by
  rw [handleAllBody, run_bind_of_ok (EStateM.run_get s), if_neg hsocket, run_bind_of_ok hrun]
  rfl

theorem run_handleAll_of_closed (hsocket : s.client.socket = -1) :
    (handleAll env (fuel + 1)).run s = .ok () s := by
  have hbody : (handleAllBody env ()).run s = .ok (.inr ()) s := by
    rw [handleAllBody, run_bind_of_ok (EStateM.run_get s), if_pos hsocket]
    rfl
  rw [handleAll, whileLoop, run_bind_of_ok hbody]
  rfl

/-- No request is read with the calls that have been changed. -/
theorem run_handleClient_paced (h : s.client.state = .recvRequest) :
    (handleClient (env.paced fread' write')).run s = (handleClient env).run s := by
  rw [handleClient, handleClient, run_bind_of_ok (EStateM.run_get s),
    run_bind_of_ok (EStateM.run_get s), h]
  rfl

/-- The calls by which the request is read are the first ones. -/
theorem run_handleAll_of_receiveAll {count : ℕ} (hrun : (receiveAll env count).run s = .ok () u) :
    ∃ j, ∀ fuel, (handleAll (env.paced fread' write') (j + fuel)).run s =
      (handleAll (env.paced fread' write') fuel).run u := by
  induction count generalizing s with
  | zero => cases hrun
  | succ count ih =>
      by_cases hdone : s.client.socket = -1 ∨ s.client.state = .sendReply
      · rw [run_receiveAll_of_done hdone] at hrun
        cases hrun
        exact ⟨0, fun fuel ↦ by rw [Nat.zero_add]⟩
      obtain ⟨hsocket, hstate⟩ := not_or.mp hdone
      have hreceiving : s.client.state = .recvRequest := by
        cases h : s.client.state with
        | recvRequest => rfl
        | sendReply => exact absurd h hstate
      obtain ⟨next, t, hbody, hrest⟩ := run_bind_eq_ok_iff.mp hrun
      rw [receiveAllBody, run_bind_of_ok (EStateM.run_get s), if_neg hdone] at hbody
      obtain ⟨_, v, hcall, hpure⟩ := run_bind_eq_ok_iff.mp hbody
      cases hpure
      obtain ⟨j, hj⟩ := ih hrest
      refine ⟨j + 1, fun fuel ↦ ?_⟩
      have hpaced := run_handleAllBody hsocket
        ((@run_handleClient_paced env s fread' write' hreceiving).trans hcall)
      rw [Nat.add_right_comm, handleAll, whileLoop, run_bind_of_ok hpaced]
      exact hj fuel

theorem ReplyStep.state (h : ReplyStep env s t) : t.client.state = s.client.state := by
  cases h <;> rfl

/-- Once the reply is being sent, `handle_client` is `continue_sending_reply`. -/
theorem run_handleAllBody_of_sendReply (hstate : s.client.state = .sendReply) :
    (handleAllBody env ()).run s = (sendAllBody env ()).run s := by
  have hcall : (handleClient env).run s = (continueSendingReply env).run s := by
    rw [handleClient, run_bind_of_ok (EStateM.run_get s), hstate]
  rw [handleAllBody, sendAllBody, run_bind_of_ok (EStateM.run_get s),
    run_bind_of_ok (EStateM.run_get s)]
  split
  · rfl
  · rw [EStateM.run_bind, EStateM.run_bind, hcall]

theorem run_handleAll_of_sendReply (hread : ∀ i, bufferSize ≤ env.fread i)
    (hsocket : s.client.socket ≠ -1) (hstate : s.client.state = .sendReply)
    (hbuffer : InBuffer s.client.nwritten s.client.ntowrite) :
    (handleAll env fuel).run s = (sendAll env fuel).run s := by
  refine run_whileLoop_congr (I := fun _ t ↦ Driven s t ∧ t.client.state = .sendReply)
    (fun _ t ht ↦ run_handleAllBody_of_sendReply ht.2) (fun _ t _ u ht hbody ↦ ?_)
    ⟨.refl hsocket hbuffer, hstate⟩
  rw [run_handleAllBody_of_sendReply ht.2] at hbody
  by_cases hclosed : t.client.socket = -1
  · rw [run_sendAllBody_of_closed hclosed] at hbody
    cases hbody
  · obtain ⟨v, hrun, hstep⟩ := run_sendAllBody hclosed (ht.1.inBuffer hclosed)
    rw [hbody] at hrun
    cases hrun
    exact ⟨ht.1.step hclosed hread hstep, hstep.state.trans ht.2⟩

end HandleAll

section Servers

variable {env : Environment} {fread' : ℕ → ℕ} {write' : ℕ → Option ℕ} {fd : ℤ}
  {buffer : Buffer bufferSize} {fuel : ℕ} {s t u : Connection}

theorem NoWriteError.later (h : NoWriteError (newConnection fd buffer) t) : NoWriteError s t := by
  intro events htrace e he
  refine h t.trace (List.append_nil _).symm e ?_
  rw [htrace]
  exact List.mem_append_left _ he

/-- The request is read in as many iterations as there are bytes in the buffer. -/
theorem run_readRequest_of_lt (hfuel : bufferSize < fuel) :
    (readRequest env fuel).run (newConnection fd buffer) =
      (readRequest env (bufferSize + 1)).run (newConnection fd buffer) := by
  obtain ⟨n, rfl⟩ := Nat.exists_eq_add_of_le (Nat.succ_le_of_lt hfuel)
  refine run_whileLoop_add fun t hrunning ↦ ?_
  have hends : Ends (readRequest env (bufferSize + 1)) (newConnection fd buffer) _ _ :=
    readRequest_ends_of_lt reading_newConnection (Nat.lt_succ_self _)
  obtain ⟨⟨f, hfault⟩, -⟩ := (ends_iff_of_error hrunning).mp hends
  cases hfault

theorem ne_of_accepted (hfuel : 0 < fuel)
    (hrun : (readRequest env fuel).run (newConnection fd buffer) = .ok 1 t) : fd ≠ -1 := by
  rintro rfl
  obtain ⟨u, hclosed, -⟩ := @run_readRequest_of_closed env (newConnection (-1) buffer) (fuel - 1)
    rfl nread_newConnection_lt
  rw [Nat.sub_add_cancel hfuel, hrun] at hclosed
  cases hclosed

theorem Accepting.socket (h : Accepting env fd t) : t.client.socket = fd := by
  obtain ⟨s, request, parsed, hreading, -, hswitch⟩ := h
  exact hswitch.socket.trans hreading.socket

/-- The two servers send the same bytes to a client, whatever the sizes of the transfers of its
reply are, in runs without write errors, and in all runs with a socket that is open and writes
that are not answered with errors. -/
theorem servers_send_alike (hread : ∀ i, bufferSize ≤ env.fread i)
    (hwrite : ∀ i k, env.write i = some k → 0 < k) (hread' : ∀ i, bufferSize ≤ fread' i)
    (hwrite' : ∀ i k, write' i = some k → 0 < k) : ∃ bound, ∀ fuel, bound < fuel →
    Ends (session env fuel) (newConnection fd buffer)
      (fun _ t ↦ Returns (handleAll (env.paced fread' write') fuel) (newConnection fd buffer)
        fun _ u ↦ NoWriteError (newConnection fd buffer) t ∨ env.Reliable fd →
          NoWriteError (newConnection fd buffer) u ∨ (env.paced fread' write').Reliable fd →
            u.sent = t.sent)
      (fun e t ↦ (∃ f, e = .fault f) ∧ Overrunning fd t) := by
  have hends : Ends (readRequest env (bufferSize + 1)) (newConnection fd buffer) _ _ :=
    readRequest_ends_of_lt reading_newConnection (Nat.lt_succ_self _)
  have hsame {fuel : ℕ} (hfuel : bufferSize < fuel) :=
    @run_readRequest_of_lt env fd buffer fuel hfuel
  cases hrun : (readRequest env (bufferSize + 1)).run (newConnection fd buffer) with
  | error e t =>
      refine ⟨bufferSize, fun fuel hfuel ↦ ?_⟩
      rw [session, ends_bind_of_error ((hsame hfuel).trans hrun)]
      exact (ends_iff_of_error hrun).mp hends
  | ok result t =>
      obtain ⟨_, u, hreceived, hsettled⟩ := readers_agree_newConnection (Nat.succ_pos _) hrun
      obtain ⟨j, hj⟩ := @run_handleAll_of_receiveAll env _ u fread' write' _ hreceived
      rcases hsettled with ⟨rfl, halike, hstate⟩ | ⟨rfl, -, hclosed, hsent⟩
      · have haccepting : Accepting env fd t := by
          rcases (ends_iff_of_ok hrun).mp hends with ⟨hzero, -⟩ | ⟨-, haccepting⟩
          · cases hzero
          · exact haccepting
        have hsocket : u.client.socket ≠ -1 := by
          rw [halike.client, haccepting.socket]
          exact ne_of_accepted (Nat.succ_pos _) hrun
        have hbuffer : InBuffer u.client.nwritten u.client.ntowrite := by
          rw [halike.client]
          exact haccepting.inBuffer
        refine ⟨bufferSize + chunksLeft bufferSize t + j + callsLeft u, fun fuel hfuel ↦ ?_⟩
        obtain ⟨_, v, hwritten, hv⟩ := @writeReply_delivers env t fuel hread hwrite
          haccepting.inBuffer (by omega) (by omega)
        rw [session, ends_bind_of_ok ((hsame (by omega)).trans hrun), if_pos (by decide),
          ends_bind_of_ok hwritten, ends_pure]
        obtain ⟨n, rfl⟩ := Nat.exists_eq_add_of_le (show j ≤ fuel by omega)
        refine .of_run_eq ((hj n).trans (run_handleAll_of_sendReply hread' hsocket ?_ hbuffer)) ?_
        · rw [halike.client, hstate]
        obtain ⟨_, w, hrest, hw⟩ := @sendAll_delivers (env.paced fread' write') u n hread' hwrite'
          hsocket hbuffer (by omega)
        refine .of_run hrest fun hno hno' ↦ ?_
        have hsent : v.sent = t.sent ++ t.client.unsent := by
          rcases hno with hno | hreliable
          · exact hv hno.later
          · rw [← haccepting.socket] at hreliable
            exact hv ((ends_iff_of_ok hwritten).mp
              (writeReply_noWriteError hreliable haccepting.inBuffer))
        have hsent' : w.sent = u.sent ++ u.client.unsent := by
          rcases hno' with hno' | hreliable
          · exact hw hno'.later
          · rw [← haccepting.socket, ← halike.client] at hreliable
            exact hw ((ends_iff_of_ok hrest).mp (sendAll_noWriteError hread' hreliable hbuffer))
        rw [hsent', hsent, halike.sent, halike.client]
      · refine ⟨bufferSize + j, fun fuel hfuel ↦ ?_⟩
        rw [session, ends_bind_of_ok ((hsame (by omega)).trans hrun)]
        refine .of_run (a := ()) ?_ fun _ _ ↦ hsent
        obtain ⟨n, rfl⟩ := Nat.exists_eq_add_of_lt hfuel
        have hclose := @run_handleAll_of_closed (env.paced fread' write') u (bufferSize + n) hclosed
        rw [← hclose, ← hj]
        congr 2
        omega

theorem session_byteByByte (hfuel : bufferSize + 4 < fuel) :
    Returns (session byteByByte fuel) (newConnection 5 fun _ ↦ 0)
      fun _ t ↦ t.sent = [79, 75, 1, 2, 3] := by
  obtain ⟨n, rfl⟩ := Nat.exists_eq_add_of_lt hfuel
  obtain ⟨t, hrun, hfile, hnothing⟩ : ∃ t,
      (readRequest byteByByte (bufferSize + 4 + n + 1)).run (newConnection 5 fun _ ↦ 0) =
        .ok 1 t ∧ t.client.file = some ⟨[1, 2, 3]⟩ ∧ t.sent = [] := ⟨_, rfl, rfl, rfl⟩
  have haccepting : Accepting byteByByte 5 t := by
    rcases (ends_iff_of_ok hrun).mp (readRequest_ends_of_lt reading_newConnection (by omega)) with
      ⟨hzero, -⟩ | ⟨-, haccepting⟩
    · cases hzero
    · exact haccepting
  have hunsent : t.client.unsent = [79, 75, 1, 2, 3] := by
    obtain ⟨s, request, parsed, -, -, hswitch⟩ := haccepting
    rw [hswitch.unsent, hfile]
    rfl
  have hchunks : chunksLeft bufferSize t = 4 := by
    rw [chunksLeft, hfile]
    rfl
  have hreliable : byteByByte.Reliable t.client.socket := by
    rw [haccepting.socket]
    exact byteByByte_reliable
  obtain ⟨result, u, hwritten, hsent⟩ := @writeReply_sends byteByByte t (bufferSize + 4 + n + 1)
    (fun _ ↦ le_rfl) byteByByte_progress hreliable haccepting.inBuffer (by omega) (by omega)
  rw [hnothing, hunsent] at hsent
  refine .bind_run hrun ?_
  rw [if_pos (by decide)]
  exact .bind_run hwritten (.pure hsent)

theorem servers_send_alike_byteByByte : ∃ bound, ∀ fuel, bound < fuel →
    Returns (session byteByByte fuel) (newConnection 5 fun _ ↦ 0) fun _ t ↦
      t.sent = [79, 75, 1, 2, 3] ∧
      Returns (handleAll (byteByByte.paced (fun _ ↦ bufferSize) fun _ ↦ some 3) fuel)
        (newConnection 5 fun _ ↦ 0) fun _ u ↦ u.sent = [79, 75, 1, 2, 3] := by
  obtain ⟨bound, hbound⟩ := @servers_send_alike byteByByte (fun _ ↦ bufferSize) (fun _ ↦ some 3) 5
    (fun _ ↦ 0) (fun _ ↦ le_rfl) byteByByte_progress (fun _ ↦ le_rfl) fun _ k h ↦ by
      obtain rfl : 3 = k := Option.some.inj h
      decide
  refine ⟨bound + bufferSize + 4, fun fuel hfuel ↦ ?_⟩
  obtain ⟨result, t, hrun, hsent⟩ := @session_byteByByte fuel (by omega)
  refine .of_run hrun ⟨hsent, ?_⟩
  refine ((ends_iff_of_ok hrun).mp (hbound fuel (by omega))).mono fun _ u hu ↦ ?_
  exact (hu (.inr byteByByte_reliable) (.inr ⟨by decide, fun _ ↦ Option.some_ne_none 3⟩)).trans hsent

end Servers

end OsProjects.Server
