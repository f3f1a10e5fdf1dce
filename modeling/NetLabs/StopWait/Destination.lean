import NetLabs.StopWait.Network

/-! # Where the client sends

`clientSend` takes its `address` as a pointer to a constant. It hands the same pointer to
`recvfrom`, as the place to store the sender, and so overwrites the `servAddr` of `main`. -/

namespace NetLabs.StopWait

open Machine

/-- The packet that the client sends in a step, with the address it goes to. -/
def Client.sends (c : Client) : ClientAction → Option (SockAddr × Packet)
  | .transmit drop => (c.transmit drop).bind fun (_, packet) => packet.map fun p => (c.servAddr, p)
  | _ => none

/-- Where a datagram received in a step comes from. -/
def ClientAction.sender : ClientAction → Option SockAddr
  | .receive _ sender _ => some sender
  | _ => none

/-- The sender of the last datagram received. -/
def lastSender (es : List ClientAction) : Option SockAddr :=
  (es.filterMap ClientAction.sender).getLast?

/-- What the client sends in this step goes to `servAddr`. -/
def Client.Addressed (servAddr : SockAddr) (c : Client) (a : ClientAction) : Prop :=
  ∀ d ∈ c.sends a, d.1 = servAddr

@[simp] theorem lastSender_nil : lastSender [] = none := rfl

/-- Only a datagram received changes where later packets go, and then they go to its
sender. -/
theorem Client.step_servAddr {c c' : Client} {a : ClientAction} (h : c.step a = some c') :
    c'.servAddr = a.sender.getD c.servAddr := by
  cases a with
  | transmit drop =>
      obtain ⟨⟨_, packet⟩, htransmit, rfl⟩ := Option.map_eq_some_iff.mp h
      obtain ⟨_, _, ⟨_, rfl⟩ | ⟨_, rfl⟩⟩ := Client.transmit_eq_some htransmit <;> rfl
  | giveUp =>
      obtain ⟨_, _, rfl⟩ := Client.giveUp_eq_some h
      exact Client.return_servAddr c
  | timeout =>
      obtain ⟨_, rfl⟩ := Client.timeout_eq_some h
      rfl
  | receive beyond sender recvpacket =>
      simp only [Client.step, Option.ite_none_right_eq_some, Option.some.injEq] at h
      obtain ⟨_, rfl⟩ := h
      exact Client.receive_servAddr beyond sender recvpacket c

variable {servAddr : SockAddr} {chunks : List Chunk} {buffer finalData : Vector UInt8 10}
  {es : List ClientAction} {c : Client}

/-- Over a whole run, packets go to the last sender, and to the server before there is one. -/
theorem Client.servAddr_of_run {ok : Client → ClientAction → Prop}
    (h : Run Client.step ok (.start servAddr chunks buffer finalData) es c) :
    c.servAddr = (lastSender es).getD servAddr := by
  induction h with
  | nil => simp [Client.start]
  | @snoc es c a c' _ _ hstep ih =>
      rw [Client.step_servAddr hstep, ih]
      unfold lastSender
      cases ha : a.sender <;> simp [ha]

/-- A packet that is not dropped on purpose is sent to `servAddr`. -/
theorem Client.sends_of_step {c c' : Client} (h : c.step (.transmit false) = some c') :
    c.sends (.transmit false) = some (c.servAddr, c.packet.seal) := by
  obtain ⟨⟨_, packet⟩, htransmit, _⟩ := Option.map_eq_some_iff.mp h
  have hpacket : packet = some c.packet.seal := by
    obtain ⟨_, _, ⟨rfl, _⟩ | ⟨rfl, _⟩⟩ := Client.transmit_eq_some htransmit
    · simp [Client.transmit] at htransmit
    · rfl
  simp [Client.sends, htransmit, hpacket]

theorem Client.eq_of_mem_sends {c : Client} {a : ClientAction} {d : SockAddr × Packet}
    (h : d ∈ c.sends a) : a = .transmit false ∧ d.1 = c.servAddr := by
  cases a with
  | transmit drop =>
      obtain ⟨⟨c', packet⟩, htransmit, hd⟩ := Option.bind_eq_some_iff.mp h
      obtain ⟨p, rfl, rfl⟩ := Option.map_eq_some_iff.mp hd
      cases drop with
      | false => exact ⟨rfl, rfl⟩
      | true => simp [Client.transmit] at htransmit
  | _ => simp [Client.sends] at h

/-- A stray datagram, which fails the checksum test, draws the next packet to its sender. -/
theorem stray_redirects :
    ∃ (servAddr stranger : SockAddr) (es : List ClientAction) (c : Client),
      Run Client.step (fun _ _ => True)
        (.start servAddr [] (.replicate 10 0) (.replicate 10 0)) es c ∧
      (c.sends (.transmit false)).map Prod.fst = some stranger ∧ stranger ≠ servAddr := by
  let stray : Packet := ⟨⟨0, 0, 1⟩, .replicate 10 0⟩
  let run : List ClientAction := [.transmit false, .receive (fun _ => 0) ⟨6000, 0⟩ stray]
  obtain ⟨c, hrun, hsends⟩ : ∃ c, Run Client.step (fun _ _ => True)
      (.start ⟨5000, 0⟩ [] (.replicate 10 0) (.replicate 10 0)) run c ∧
        (c.sends (.transmit false)).map Prod.fst = some ⟨6000, 0⟩ :=
    Run.exists_of_exec (by simp) (by decide)
  exact ⟨⟨5000, 0⟩, ⟨6000, 0⟩, run, c, hrun, hsends, by decide⟩

/-- A run addresses all its packets to the server exactly when each packet is sent before
any datagram has come, or after one that came from the server. -/
theorem addressed_iff (servAddr : SockAddr) (chunks : List Chunk)
    (buffer finalData : Vector UInt8 10) (es : List ClientAction) (c : Client)
    (h : Run Client.step (fun _ _ => True) (.start servAddr chunks buffer finalData) es c) :
    Run Client.step (Client.Addressed servAddr) (.start servAddr chunks buffer finalData) es c ↔
      ∀ pre post, es = pre ++ .transmit false :: post →
        ∀ sender ∈ lastSender pre, sender = servAddr := by
  rw [h.iff_forall]
  constructor
  · rintro haddressed pre post rfl sender hsender
    obtain ⟨u, v, hpre, _, hstep⟩ := Run.at h
    have hserv := haddressed pre _ post u rfl hpre _ (Client.sends_of_step hstep)
    rw [Client.servAddr_of_run hpre, Option.mem_def.mp hsender] at hserv
    exact hserv
  · rintro hsenders pre a post u rfl hpre d hd
    obtain ⟨rfl, hserv⟩ := Client.eq_of_mem_sends hd
    rw [hserv, Client.servAddr_of_run hpre]
    cases hlast : lastSender pre with
    | none => rfl
    | some sender => exact hsenders pre post rfl sender hlast

/-- A damaged ACK from the server, and the packet sent again. -/
theorem addressed_iff_resent :
    ∃ (es : List ClientAction) (c : Client),
      Run Client.step (Client.Addressed ⟨5000, 0⟩)
        (.start ⟨5000, 0⟩ [] (.replicate 10 0) (.replicate 10 0)) es c ∧
      c.selects = [0, 0] := by
  let damaged : Packet := ⟨⟨0, 0, 1⟩, .replicate 10 0⟩
  let run : List ClientAction :=
    [.transmit false, .receive (fun _ => 0) ⟨5000, 0⟩ damaged, .transmit false]
  obtain ⟨c, hrun, hselects⟩ : ∃ c, Run Client.step (fun _ _ => True)
      (.start ⟨5000, 0⟩ [] (.replicate 10 0) (.replicate 10 0)) run c ∧ c.selects = [0, 0] :=
    Run.exists_of_exec (by simp) (by decide)
  refine ⟨run, c, (addressed_iff _ _ _ _ run c hrun).mpr ?_, hselects⟩
  intro pre post hsplit sender hsender
  have hmem : sender ∈ run.filterMap ClientAction.sender := by
    rw [hsplit, List.filterMap_append]
    exact List.mem_append_left _ (List.mem_of_getLast? hsender)
  simpa [run, ClientAction.sender, eq_comm] using hmem

end NetLabs.StopWait
