/-
# What a step of the world can do

`Turn` lists the steps with what they ask for and where they lead, in terms of the turns of the
single processes; `next_cases` proves the list complete.  Every invariant of the world is a case
analysis over it.

`Wf` holds of every reachable world, over any links: the parent's members are as constructed, a
process inside `init` is inside its loop, and the windows hold data packets.
-/
import Fileserver.Handshake
import Fileserver.Receiver
import Fileserver.World

namespace Fileserver

open Proto

/-- Behind `init`, a child that takes a turn is in the data phase. -/
theorem Server.inData_of_step [Host] {v v' : Server} {e : Server.Event} {out : Option Packet}
    (h : v.step e = some (v', out)) (hs : v.mvState ≠ .init) : v.inData := by
  cases e <;> cases hs' : v.mvState <;> simp [step, running, receives, hs', inData] at h hs ⊢

/-- Where the child receives, a turn is one of `init` or of `waitRR`. -/
theorem Server.step_hear [Host] {s t : Server} {r : Recv} {io : Bool} {out : Option Packet}
    (h : s.step (.hear r io) = some (t, out)) :
    s.mvState = .init ∧ t = (s.init r io).1 ∨ s.mvState ≠ .init ∧ t = s.waitRR r io := by
  simp only [step, Option.ite_none_right_eq_some, Option.some.injEq] at h
  obtain ⟨-, h⟩ := h
  unfold hear at h
  split at h
  · rename_i hs
    exact .inl ⟨hs, by rw [h]⟩
  · rename_i hs
    exact .inr ⟨hs, (Prod.mk.inj h).1.symm⟩

/-- Where the client receives, a turn is one of `init` or of `recvPackets`. -/
theorem Client.step_hear [Host] {c d : Client} {r : Recv} {sock : Addr} {wr io : Bool}
    {out : Option Packet} (h : c.step (.hear r sock wr io) = some (d, out)) :
    c.mvState = .init ∧ d = c.init r sock io ∨
      c.mvState ≠ .init ∧ d = (c.recvPackets r wr io).1 := by
  simp only [step, Option.ite_none_right_eq_some] at h
  obtain ⟨-, h⟩ := h
  split at h
  · rename_i hs
    exact .inl ⟨hs, (Prod.mk.inj (Option.some.inj h)).1.symm⟩
  · rename_i hs
    exact .inr ⟨hs, by rw [Option.some.inj h]⟩

/-- Inside `init`, a turn that receives is one of those listed. -/
theorem Server.initTurn_of_step [Host] {v v' : Server} {r : Recv} {io : Bool}
    {out : Option Packet} (hs : v.mvState = .init) (hl : v.initLoop = true)
    (h : v.step (.hear r io) = some (v', out)) : v.InitTurn r io v' out := by
  simp only [step, hear, hs, Option.ite_none_right_eq_some, Option.some.injEq] at h
  have ht := init_cases hl r io
  rwa [h.2] at ht

theorem Client.initTurn_of_step [Host] {c c' : Client} {r : Recv} {sock : Addr} {wr io : Bool}
    {out : Option Packet} (hs : c.mvState = .init) (hi : 0 ≤ c.i ∧ c.i < 5)
    (h : c.step (.hear r sock wr io) = some (c', out)) :
    c.sent = true ∧ out = none ∧ c.InitTurn sock r io c' := by
  simp only [step, receives, hs, Option.ite_none_right_eq_some, Option.some.injEq,
    Prod.mk.injEq, Bool.and_eq_true] at h
  obtain ⟨⟨-, hsent⟩, hc, rfl⟩ := h
  have ht := init_cases hi.1 hi.2 r sock io
  rw [hc] at ht
  exact ⟨hsent, rfl, ht⟩

namespace World

/-! ## 1. Queues -/

theorem mem_post {q : Addr → List Datagram} {dst src x : Addr} {out : Option Packet}
    {d : Datagram} :
    d ∈ post q dst src out x ↔ d ∈ q x ∨ x = dst ∧ ∃ p, out = some p ∧ d = ⟨src, p⟩ := by
  unfold post
  by_cases hx : x = dst
  · subst hx
    rw [Function.update_self, List.mem_append]
    cases out <;> simp
  · rw [Function.update_of_ne hx]
    simp [hx]

/-- What is left in a queue is what was there. -/
theorem mem_update {q : Addr → List Datagram} {x y : Addr} {l : List Datagram} {d : Datagram}
    (hl : ∀ d ∈ l, d ∈ q y) (h : d ∈ Function.update q y l x) : d ∈ q x := by
  by_cases hx : x = y
  · subst hx
    rw [Function.update_self] at h
    exact hl d h
  · rwa [Function.update_of_ne hx] at h

theorem mem_bind {w : World} {b : Bool} {sock x : Addr} (h : x ∈ w.bound) :
    x ∈ w.bind b sock := by
  unfold bind
  split_ifs
  · exact List.mem_cons_of_mem _ h
  · exact h

@[simp] theorem post_none (q : Addr → List Datagram) (dst src : Addr) :
    post q dst src none = q := by
  simp [post, Function.update_eq_self]

variable [Host]

/-! ## 2. The steps -/

/-- **Well-formed worlds.** -/
structure Wf (w : World) : Prop where
  parent : w.parent.server.Constructed
  loop : ∀ v ∈ w.children, v.mvState = .init → v.initLoop = true
  data : ∀ v ∈ w.children, (∀ p ∈ v.mvWindow, IsData p) ∧ ∀ p ∈ v.mvOutBuf, IsData p
  client : w.client.mvState = .init → 0 ≤ w.client.i ∧ w.client.i < 5 ∧ 0 < w.client.mvRetries
  remote : w.client.mvRemote = w.port.host
  bound : w.port ∈ w.bound

/-- The steps of the world.  A turn that takes a datagram off a queue says so by `Takes` where
the packet counts, by `recv` where it may be anything. -/
inductive Turn (n : Link) (w : World) : Event → World → Prop
  | parentStops {a : Arrival} {sock : Addr} {forks io : Bool} {l : List Datagram}
      (ha : a.recv (w.up w.port) = some (.failed, l)) :
      Turn n w (.parentHear a sock forks io)
        { w with parent := { w.parent with returned := true } }
  | parentDrops {a : Arrival} {sock src : Addr} {forks io : Bool} {buf : Packet}
      {l : List Datagram} (hok : buf.ok = false)
      (ha : a.recv (w.up w.port) = some (.datagram src buf, l)) (hs : n.Shed (w.up w.port) l) :
      Turn n w (.parentHear a sock forks io) (w.afterParent src l w.bound (w.parent, none, none))
  | parent {a : Arrival} {sock src : Addr} {forks io : Bool} {buf : Packet} {l : List Datagram}
      (hn : buf.type = pktTypeCXN → sock ∉ w.bound ∧ sock.host = w.port.host)
      (hok : buf.ok = true)
      (ha : a.recv (w.up w.port) = some (.datagram src buf, l))
      (ht : n.Takes (w.up w.port) ⟨src, buf⟩ l) :
      Turn n w (.parentHear a sock forks io)
        (w.afterParent src l (w.bind (Parent.opensOn (.datagram src buf)) sock)
          (w.parent.run src buf sock forks io))
  | childAct {k : ℕ} {io : Bool} {v v' : Server} {out : Option Packet}
      (hk : w.children[k]? = some v) (hd : v.inData) (ht : v.Turn (.act io) v' out)
      (hst : v.step (.act io) = some (v', out)) :
      Turn n w (.childAct k io)
        (w.afterChild k w.up
          (if v.pushes (.act io) then w.built ++ [v.nextPacket] else w.built) (v', out))
  | childInit {k : ℕ} {a : Arrival} {io : Bool} {v v' : Server} {r : Recv} {l : List Datagram}
      {out : Option Packet} (hk : w.children[k]? = some v) (hs : v.mvState = .init)
      (hal : a.allowed n) (ha : a.recv (w.up v.mvSocket) = some (r, l))
      (ht : v.InitTurn r io v' out) (hst : v.step (.hear r io) = some (v', out)) :
      Turn n w (.childHear k a io)
        (w.afterChild k (Function.update w.up v.mvSocket l) w.built (v', out))
  | childHear {k : ℕ} {a : Arrival} {io : Bool} {v v' : Server} {r : Recv} {l : List Datagram}
      {out : Option Packet} (hk : w.children[k]? = some v) (hd : v.inData)
      (hal : a.allowed n) (ha : a.recv (w.up v.mvSocket) = some (r, l))
      (ht : v.Turn (.hear r io) v' out) (hst : v.step (.hear r io) = some (v', out)) :
      Turn n w (.childHear k a io)
        (w.afterChild k (Function.update w.up v.mvSocket l) w.built (v', out))
  | clientSends (hs : w.client.mvState = .init) (hsent : w.client.sent = false) :
      Turn n w (.clientAct true)
        (w.afterClient w.down w.bound
          ({ w.client with sent := true }, some (w.client.pkt w.client.i)))
  | clientStops (hs : w.client.mvState = .init) :
      Turn n w (.clientAct false)
        (w.afterClient w.down w.bound ({ w.client with mvState := .error }, none))
  | clientInit {a : Arrival} {sock : Addr} {wr io : Bool} {r : Recv} {l : List Datagram}
      {c : Client} (hn : w.client.opensOn r = true → sock ∉ w.bound)
      (hs : w.client.mvState = .init)
      (hsent : w.client.sent = true) (hal : a.allowed n)
      (ha : a.recv (w.down w.client.mvSocket) = some (r, l)) (ht : w.client.InitTurn sock r io c) :
      Turn n w (.clientHear a sock wr io)
        (w.afterClient (Function.update w.down w.client.mvSocket l)
          (w.bind (w.client.opensOn r) sock) (c, none))
  | clientHear {a : Arrival} {sock : Addr} {wr io : Bool} {r : Recv} {l : List Datagram}
      {c : Client} {out : Option Packet} (hs : w.client.mvState = .recvPackets)
      (hal : a.allowed n) (ha : a.recv (w.down w.client.mvSocket) = some (r, l))
      (ht : w.client.Turn r wr io c out) :
      Turn n w (.clientHear a sock wr io)
        (w.afterClient (Function.update w.down w.client.mvSocket l)
          (w.bind (w.client.opensOn r) sock) (c, out))
  | noiseUp {e : Event} {x : Addr} {l : List Datagram} (hn : n.Noise (w.up x) l) :
      Turn n w e { w with up := Function.update w.up x l }
  | noiseDown {e : Event} {x : Addr} {l : List Datagram} (hn : n.Noise (w.down x) l) :
      Turn n w e { w with down := Function.update w.down x l }

/-- **The list of steps is complete.** -/
theorem next_cases {n : Link} {w t : World} {e : Event} (hw : w.Wf) (hm : may n w e)
    (h : w.next e = some t) : Turn n w e t := by
  cases e with
  | parentHear a sock forks io =>
    obtain ⟨hal, hn⟩ := hm
    simp only [next, Option.ite_none_left_eq_some] at h
    obtain ⟨-, h⟩ := h
    split at h
    · rename_i src buf l ha
      obtain rfl := Option.some.inj h
      by_cases hok : buf.ok = true
      · refine .parent (fun ht => hn _ (Option.mem_def.mpr ha) ?_) hok ha
          (Arrival.recv_ok hal ha hok)
        simp [Parent.opensOn, hok, ht]
      · have hrun : w.parent.run src buf sock forks io = (w.parent, none, none) := by
          simp [Parent.run, hok]
        have hno : Parent.opensOn (.datagram src buf) = false := by simp [Parent.opensOn, hok]
        rw [hrun, hno]
        exact .parentDrops (by simpa using hok) ha (Arrival.recv_shed hal ha)
    · rename_i l ha
      obtain rfl := Option.some.inj h
      exact .parentStops ha
    · simp at h
    · simp at h
  | childAct k io =>
    obtain ⟨v, hk, h⟩ := Option.bind_eq_some_iff.mp h
    obtain ⟨⟨v', out⟩, hst, rfl⟩ := Option.map_eq_some_iff.mp h
    have hs : v.mvState ≠ .init := by
      intro hs
      simp [Server.step, Server.receives, hs] at hst
    have hd := Server.inData_of_step hst hs
    exact .childAct hk hd (Server.step_cases hd hst) hst
  | childHear k a io =>
    obtain ⟨v, hk, h⟩ := Option.bind_eq_some_iff.mp h
    obtain ⟨⟨r, l⟩, ha, h⟩ := Option.bind_eq_some_iff.mp h
    obtain ⟨⟨v', out⟩, hst, rfl⟩ := Option.map_eq_some_iff.mp h
    by_cases hs : v.mvState = .init
    · have hl := hw.loop v (List.mem_of_getElem? hk) hs
      exact .childInit hk hs hm ha (Server.initTurn_of_step hs hl hst) hst
    · have hd := Server.inData_of_step hst hs
      exact .childHear hk hd hm ha (Server.step_cases hd hst) hst
  | clientAct io =>
    obtain ⟨⟨c, out⟩, hst, rfl⟩ := Option.map_eq_some_iff.mp h
    simp only [Client.step, Option.ite_none_right_eq_some, Option.some.injEq] at hst
    obtain ⟨hg, hst⟩ := hst
    obtain ⟨hs, hsent⟩ : w.client.mvState = .init ∧ w.client.sent = false := by
      cases hs : w.client.mvState <;> simp [Client.running, Client.receives, hs] at hg ⊢
      exact hg
    cases io with
    | true =>
      obtain ⟨rfl, rfl⟩ := Prod.mk.inj hst
      exact .clientSends hs hsent
    | false =>
      obtain ⟨rfl, rfl⟩ := Prod.mk.inj hst
      exact .clientStops hs
  | clientHear a sock wr io =>
    obtain ⟨hal, hn⟩ := hm
    obtain ⟨⟨r, l⟩, ha, h⟩ := Option.bind_eq_some_iff.mp h
    obtain ⟨⟨c, out⟩, hst, rfl⟩ := Option.map_eq_some_iff.mp h
    by_cases hs : w.client.mvState = .init
    · obtain ⟨h0, h5, -⟩ := hw.client hs
      obtain ⟨hsent, rfl, ht⟩ := Client.initTurn_of_step hs ⟨h0, h5⟩ hst
      exact .clientInit (hn _ (Option.mem_def.mpr ha)) hs hsent hal ha ht
    · obtain ⟨hr, ht⟩ := Client.step_cases hs hst
      exact .clientHear hr hal ha ht
  | loseUp x i =>
    obtain rfl := Option.some.inj h
    exact .noiseUp (.inl ⟨hm, i, rfl⟩)
  | dupUp x i =>
    obtain rfl := Option.some.inj h
    exact .noiseUp (.inr ⟨hm, i, rfl⟩)
  | loseDown x i =>
    obtain rfl := Option.some.inj h
    exact .noiseDown (.inl ⟨hm, i, rfl⟩)
  | dupDown x i =>
    obtain rfl := Option.some.inj h
    exact .noiseDown (.inr ⟨hm, i, rfl⟩)

/-! ## 3. Well-formed worlds -/

variable {n : Link} {w t : World} {e : Event}

theorem port_afterParent (w : World) (src a : Addr) (l : List Datagram) (b : List Addr)
    (sock : Addr) (q : Packet) (forks io : Bool) :
    (w.afterParent src l b (w.parent.run a q sock forks io)).port = w.port :=
  congrArg Server.mvSocket (Parent.run_server ..)

omit [Host] in
/-- A turn of the parent that does nothing takes the datagram off the queue. -/
theorem afterParent_drop (w : World) (src : Addr) (l : List Datagram) :
    w.afterParent src l w.bound (w.parent, none, none)
      = { w with up := Function.update w.up w.port l } := by
  simp [afterParent]

omit [Host] in
/-- What holds of every child holds behind the turn of one of them, if it holds of that one. -/
theorem forall_set {P : Server → Prop} {l : List Server} {k : ℕ} {v' : Server}
    (h : ∀ v ∈ l, P v) (hv : P v') : ∀ v ∈ l.set k v', P v := by
  intro v hm
  rcases List.mem_or_eq_of_mem_set hm with hm | rfl
  · exact h v hm
  · exact hv

/-- It holds behind a turn of the parent, if it holds of the child the parent may fork. -/
theorem forall_fork {P : Server → Prop} {src sock : Addr} {buf : Packet} {forks io : Bool}
    (h : ∀ v ∈ w.children, P v) (hf : P (w.parent.server.forked w.parent.sk src)) :
    ∀ v ∈ w.children ++ (w.parent.run src buf sock forks io).2.2.toList, P v := by
  intro v hm
  rcases List.mem_append.mp hm with hm | hm
  · exact h v hm
  · obtain ⟨-, -, rfl⟩ := Parent.run_child (Option.mem_toList.mp hm)
    exact hf

/-- **Every step keeps worlds well-formed.** -/
theorem Turn.wf (h : Turn n w e t) (hw : w.Wf) : t.Wf := by
  -- a turn of a child that keeps to its loop and to data packets
  have hchild {k : ℕ} {v v' : Server} {up : Addr → List Datagram} {b : List Packet}
      {out : Option Packet} (hk : w.children[k]? = some v)
      (hl : v'.mvState = .init → v'.initLoop = true)
      (hd : (∀ p ∈ v'.mvWindow, IsData p) ∧ ∀ p ∈ v'.mvOutBuf, IsData p) :
      (w.afterChild k up b (v', out)).Wf :=
    { hw with loop := forall_set hw.loop hl, data := forall_set hw.data hd }
  cases h with
  | parentStops => exact { hw with }
  | parentDrops hok ha hs => exact { hw with
      loop := by simpa [afterParent] using hw.loop
      data := by simpa [afterParent] using hw.data
      bound := hw.bound }
  | @parent a sock src forks io buf l hn hok ha ht =>
    have hsrv := Parent.run_server w.parent src buf sock forks io
    refine
      { parent := ?_, loop := ?_, data := ?_, client := hw.client, remote := ?_, bound := ?_ }
    · exact hsrv.symm ▸ hw.parent
    · exact forall_fork hw.loop fun _ => Server.forked_loop hw.parent _ _
    · refine forall_fork hw.data ?_
      simp [Server.forked, hw.parent.window, hw.parent.outBuf]
    · rw [port_afterParent]
      exact hw.remote
    · rw [port_afterParent]
      exact mem_bind hw.bound
  | @childAct k io v v' out hk hd ht =>
    have hv := List.mem_of_getElem? hk
    exact hchild hk (fun hs => absurd hs (ht.ne_init hd))
      (ht.isData (hw.data v hv).1 (hw.data v hv).2)
  | @childInit k a io v v' r l out hk hs hal ha ht =>
    have hv := List.mem_of_getElem? hk
    obtain ⟨hl, hwin, hout, -⟩ := ht.stays (hw.loop v hv hs)
    exact hchild hk hl (by rw [hwin, hout]; exact hw.data v hv)
  | @childHear k a io v v' r l out hk hd hal ha ht =>
    have hv := List.mem_of_getElem? hk
    exact hchild hk (fun hs => absurd hs (ht.ne_init hd))
      (ht.isData (hw.data v hv).1 (hw.data v hv).2)
  | clientSends hs hsent => exact { hw with }
  | clientStops hs => exact { hw with client := by simp [afterClient] }
  | clientInit hn hs hsent hal ha ht =>
    obtain ⟨h0, h5, -⟩ := hw.client hs
    obtain ⟨hi, hr⟩ := ht.stays h0 h5
    exact { hw with
      client := hi, remote := hr.trans hw.remote, bound := mem_bind hw.bound }
  | clientHear hs hal ha ht =>
    exact { hw with
      client := fun hs' => by cases ht <;> simp [afterClient, Client.accepted, hs] at hs'
      remote := by cases ht <;> exact hw.remote
      bound := mem_bind hw.bound }
  | noiseUp hn => exact { hw with }
  | noiseDown hn => exact { hw with }

theorem Start.wf {from_ : List UInt8} {bufsz winsz : Int32} (h : Start from_ bufsz winsz w) :
    w.Wf where
  parent := h.parent.server
  loop := by simp [h.children]
  data := by simp [h.children]
  client := by
    obtain ⟨_, _, _, -, hc⟩ := h.client
    simp [hc, Client.rcopy, pktTrnsMax]
  remote := by
    obtain ⟨_, _, _, -, hc⟩ := h.client
    rw [hc]
    rfl
  bound := by simp [h.bound]

theorem wf_of_reach {from_ : List UInt8} {bufsz winsz : Int32}
    (h : (system from_ bufsz winsz n).Reach w) : w.Wf := by
  refine h.invariant (I := Wf) (fun _ h0 => Start.wf h0) ?_
  intro _ _ _ _ hi hm hn
  exact (next_cases hi hm hn).wf hi

end World

end Fileserver
