/-
# Links that only lose

Over links that lose datagrams but keep their order, no late reply is ever taken for data, and
nothing has to be assumed for the output to be the file.

There is one child (`OnlyChild.lean`), and what is sent down comes in three stages: the parent
replies until it forks, the child replies until it has the file, and from then on it sends data.
So every queue holds the parent's replies first, the child's replies behind them and the data
last (`Lanes`).  The client leaves `init` on a packet of the child, with the parent's replies
behind it, and what it then waits for has number 0, which no reply of a child has; and with the
first data packet it has left the replies of the child behind it as well (`Receiving`).
-/
import Fileserver.Delivered
import Fileserver.OnlyChild
import Fileserver.Peers

namespace Fileserver

open Proto

/-- The stage a datagram on its way down belongs to: replies of the parent, whose socket is
`port`, replies of the child, data. -/
def stage (port : Addr) (d : Datagram) : ℕ :=
  if d.src = port then 0 else if d.pkt.type = pktTypeDAT then 2 else 1

theorem stage_parent {port : Addr} {d : Datagram} (h : d.src = port) : stage port d = 0 :=
  if_pos h

theorem stage_data {port : Addr} {d : Datagram} (h : d.src ≠ port)
    (ht : d.pkt.type = pktTypeDAT) : stage port d = 2 := by
  simp [stage, h, ht]

theorem stage_reply {port : Addr} {d : Datagram} (h : d.src ≠ port)
    (ht : d.pkt.type ≠ pktTypeDAT) : stage port d = 1 := by
  simp [stage, h, ht]

theorem stage_le_two (port : Addr) (d : Datagram) : stage port d ≤ 2 := by
  unfold stage
  split_ifs <;> omega

namespace World

/-- Some child is past `init`. -/
def Past (w : World) : Prop := ∃ v ∈ w.children, v.mvState ≠ .init

/-- What a datagram on its way down says about the world. -/
def Known (w : World) (d : Datagram) : Prop :=
  d.src = w.port ∧ d.pkt.type = pktTypeRR ∧ d.pkt.sequence.toNat ≤ 1 ∨
  d.src ≠ w.port ∧ w.children ≠ [] ∧
    (d.pkt.type = pktTypeDAT ∧ w.Past ∨
      d.pkt.type ≠ pktTypeDAT ∧ 1 ≤ d.pkt.sequence.toNat)

/-- **The stages come in order**, in every queue. -/
structure Lanes (w : World) : Prop where
  sorted : ∀ x, (w.down x).Pairwise fun d e => stage w.port d ≤ stage w.port e
  known : ∀ x, ∀ d ∈ w.down x, w.Known d

/-- The client in `RECV_PACKETS` has left the parent behind, and once it has counted a packet the
replies of the child too. -/
structure Receiving (w : World) : Prop where
  addr : w.client.mvAddr ≠ w.port
  kid : w.children ≠ []
  down : ∀ d ∈ w.down w.client.mvSocket, d.src ≠ w.port
  data : w.client.mvSequence = 0 ∨
    w.Past ∧ ∀ d ∈ w.down w.client.mvSocket, d.pkt.type = pktTypeDAT

variable [Host]

/-- **The invariant.** -/
structure Staged (w : World) : Prop extends Lanes w where
  atPort : ∀ d ∈ w.up w.port, ∃ j : Int, 0 ≤ j ∧ j < 5 ∧ d.pkt = w.client.pkt j
  up : w.Past ∨ ∀ x, ∀ d ∈ w.up x, d.pkt.sequence.toNat ≤ 4
  kids : ∀ v ∈ w.children, v.mvSocket ≠ w.port ∧
    (v.mvState = .init → 1 ≤ v.mvSequence.toNat ∧ v.mvSequence.toNat ≤ 5)
  pending : w.parent.cxn2 = true → w.parent.sk ≠ w.port
  client : w.client.mvState = .recvPackets → w.Receiving

variable {n : Link} {w t : World} {e : Event}

/-! ## 1. Nothing falls back -/

theorem Turn.children_ne_nil (h : Turn n w e t) (hne : w.children ≠ []) : t.children ≠ [] := by
  obtain ⟨v, hv⟩ := List.exists_mem_of_ne_nil _ hne
  obtain ⟨k, hk⟩ := List.mem_iff_getElem?.mp hv
  obtain ⟨v', hk', -⟩ := h.kid hk
  exact List.ne_nil_of_mem (List.mem_of_getElem? hk')

theorem Turn.past (h : Turn n w e t) (hp : w.Past) : t.Past := by
  obtain ⟨v, hv, hs⟩ := hp
  obtain ⟨k, hk⟩ := List.mem_iff_getElem?.mp hv
  obtain ⟨v', hk', hg⟩ := h.kid hk
  refine ⟨v', List.mem_of_getElem? hk', ?_⟩
  rcases hg with rfl | ⟨ev, out, hst⟩
  · exact hs
  · have hd := Server.inData_of_step hst hs
    exact (Server.step_cases hd hst).ne_init hd

theorem Turn.port_eq (h : Turn n w e t) : t.port = w.port := by
  cases h with
  | parent => exact port_afterParent ..
  | _ => rfl

theorem Turn.known (h : Turn n w e t) {d : Datagram} (hd : w.Known d) : t.Known d := by
  rcases hd with hd | ⟨hs, hne, hd⟩
  · exact .inl (h.port_eq ▸ hd)
  · exact .inr ⟨h.port_eq ▸ hs, h.children_ne_nil hne, hd.imp_left (And.imp_right h.past)⟩

/-! ## 2. The queues -/

/-- The queues got shorter. -/
theorem Lanes.shed (hl : w.Lanes) (h : Turn n w e t)
    (hd : ∀ x, (t.down x).Sublist (w.down x)) : t.Lanes := by
  refine ⟨?_, fun x d hx => h.known (hl.known x d ((hd x).subset hx))⟩
  intro x
  rw [h.port_eq]
  exact (hl.sorted x).sublist (hd x)

/-- A packet of the latest stage so far was sent. -/
theorem Lanes.sends (hl : w.Lanes) (h : Turn n w e t) {dst src : Addr} {out : Option Packet}
    (hd : t.down = post w.down dst src out)
    (hout : ∀ p, out = some p → t.Known ⟨src, p⟩ ∧
      ∀ x, ∀ d ∈ w.down x, stage w.port d ≤ stage w.port ⟨src, p⟩) : t.Lanes := by
  constructor
  · intro x
    rw [hd, h.port_eq, post]
    by_cases hx : x = dst
    · subst hx
      rw [Function.update_self, List.pairwise_append]
      refine ⟨hl.sorted x, ?_, ?_⟩
      · cases out <;> simp
      · intro d hdx e he
        obtain ⟨p, hp, rfl⟩ := List.mem_map.mp he
        exact (hout p (Option.mem_toList.mp hp)).2 x d hdx
    · rw [Function.update_of_ne hx]
      exact hl.sorted x
  · intro x d hx
    rw [hd] at hx
    rcases mem_post.mp hx with hx | ⟨-, p, hp, rfl⟩
    · exact h.known (hl.known x d hx)
    · exact (hout p hp).1

omit [Host] in
/-- With no child all is the parent's. -/
theorem Lanes.parents (hl : w.Lanes) (hnil : w.children = []) {x : Addr} {d : Datagram}
    (hd : d ∈ w.down x) : d.src = w.port := by
  rcases hl.known x d hd with ⟨hs, -⟩ | ⟨-, hne, -⟩
  · exact hs
  · exact absurd hnil hne

omit [Host] in
/-- Behind a datagram of the child there is none of the parent, and behind data only data. -/
theorem Lanes.behind (hl : w.Lanes) {x : Addr} {d : Datagram} {l : List Datagram}
    (hq : w.down x = d :: l) (hs : d.src ≠ w.port) :
    (∀ e ∈ l, e.src ≠ w.port) ∧
      (d.pkt.type = pktTypeDAT → ∀ e ∈ l, e.pkt.type = pktTypeDAT) := by
  have hsort := hl.sorted x
  rw [hq, List.pairwise_cons] at hsort
  have hpos : 1 ≤ stage w.port d := by
    rw [stage, if_neg hs]
    split_ifs <;> omega
  have hsrc : ∀ e ∈ l, e.src ≠ w.port := by
    intro e he hp
    have := hsort.1 e he
    rw [stage_parent hp] at this
    omega
  refine ⟨hsrc, ?_⟩
  intro ht e he
  by_contra hne
  have := hsort.1 e he
  rw [stage_data hs ht, stage_reply (hsrc e he) hne] at this
  omega

/-! ## 3. The processes -/

end World

/-- A turn of a child in `init` that hears small numbers keeps its own small, and what it sends is a
reply with a number from 1 on. -/
theorem Server.InitTurn.small [Host] {v v' : Server} {r : Recv} {io : Bool}
    {out : Option Packet} (h : v.InitTurn r io v' out)
    (hv : 1 ≤ v.mvSequence.toNat ∧ v.mvSequence.toNat ≤ 5)
    (hr : ∀ src buf, r = .datagram src buf → buf.ok = true → buf.sequence.toNat ≤ 4) :
    (v'.mvState = .init → 1 ≤ v'.mvSequence.toNat ∧ v'.mvSequence.toNat ≤ 5) ∧
      ∀ p, out = some p → p.type ≠ pktTypeDAT ∧ 1 ≤ p.sequence.toNat := by
  obtain ⟨h1, h5⟩ := hv
  cases h with
  | nag | old | high => exact ⟨fun _ => ⟨h1, h5⟩, by simpa using h1⟩
  | gaveUp | opened | unopened => exact ⟨by simp, by simpa using h1⟩
  | take hok hq hl =>
    have h4 := hr _ _ rfl hok
    rw [hq] at h4
    refine ⟨fun _ => ?_, by simpa using h1⟩
    have hseq : (v.mvSequence + 1).toNat = v.mvSequence.toNat + 1 := by
      rw [UInt32.toNat_add, UInt32.toNat_one]
      exact Nat.mod_eq_of_lt (by omega)
    rw [taken_sequence, hseq]
    omega
  | fail hf he => exact ⟨by simp [he], by simp⟩

namespace Client

variable [Host] {c d : Client}

/-- Before it has counted a packet, the client in `RECV_PACKETS` sends the number 0 only. -/
theorem Turn.out_zero {r : Recv} {wr io : Bool} {p : Packet} (h : c.Turn r wr io d (some p))
    (hq : c.mvSequence = 0) : p.sequence = 0 := by
  cases h with
  | nag | gap => exact hq
  | accept hok hs => exact hs.trans hq
  | old hok hs =>
    rw [hq, UInt32.lt_iff_toNat_lt] at hs
    simp at hs

end Client

namespace World

variable [Host] {w t : World} {e : Event}

/-! ## 4. The steps -/

/-- With a child, the parent has nothing to say. -/
theorem Staged.parent_quiet (hi : w.Staged) (hoc : w.OnlyChild) (hne : w.children ≠ [])
    {src sock : Addr} {forks io : Bool} {buf : Packet} (hm : ⟨src, buf⟩ ∈ w.up w.port) :
    (w.parent.run src buf sock forks io).2.1 = none := by
  obtain ⟨-, hx, hcxn⟩ := hoc.one.resolve_left hne
  obtain ⟨j, h0, h5, hj⟩ := hi.atPort _ hm
  refine Option.eq_none_iff_forall_not_mem.mpr ?_
  intro p hp
  rcases Parent.run_out hp with ht | ht | ht
  · exact hcxn _ hm ht
  · simp [hx] at ht
  · have hj : buf = w.client.pkt j := hj
    exact Client.pkt_type_rej h0 h5 (hj ▸ ht)

/-- A turn of the parent. -/
theorem Staged.parent (hi : w.Staged) (hw : w.Wf) (hoc : w.OnlyChild) {src sock : Addr}
    {forks io : Bool} {buf : Packet} {l : List Datagram} {b : List Addr}
    (h : Turn .lossy w e (w.afterParent src l b (w.parent.run src buf sock forks io)))
    (hn : buf.type = pktTypeCXN → sock ∉ w.bound) (hm : ⟨src, buf⟩ ∈ w.up w.port)
    (hl : ∀ d ∈ l, d ∈ w.up w.port) :
    (w.afterParent src l b (w.parent.run src buf sock forks io)).Staged := by
  have hport := port_afterParent w src src l b sock buf forks io
  have hup (x : Addr) (d : Datagram) (hd : d ∈ (w.afterParent src l b
      (w.parent.run src buf sock forks io)).up x) : d ∈ w.up x := mem_update hl hd
  refine ⟨hi.toLanes.sends h rfl ?_, ?_, ?_, ?_, ?_, ?_⟩
  · intro p hp
    have hnil : w.children = [] := by
      by_contra hne
      simp [hi.parent_quiet hoc hne hm] at hp
    obtain ⟨j, h0, h5, hj⟩ := hi.atPort _ hm
    obtain rfl : buf = w.client.pkt j := hj
    obtain ⟨-, ht, hq⟩ := Parent.run_reply ⟨h0, h5⟩ (Option.mem_def.mpr hp)
    refine ⟨.inl ⟨hport.symm, ht, hq⟩, fun x d hd => ?_⟩
    rw [stage_parent (hi.toLanes.parents hnil hd)]
    exact Nat.zero_le _
  · intro d hd
    rw [hport] at hd
    exact hi.atPort d (hup _ d hd)
  · exact hi.up.imp h.past fun hu x d hd => hu x d (hup x d hd)
  · intro v hv
    rw [hport]
    rcases List.mem_append.mp hv with hv | hv
    · exact hi.kids v hv
    · obtain ⟨-, hx, rfl⟩ := Parent.run_child (Option.mem_toList.mp hv)
      exact ⟨hi.pending hx, fun _ => by simp [Server.forked]⟩
  · intro hx
    rw [hport]
    rcases Parent.run_pending hx with ⟨ht, hsk⟩ | ⟨hx', hsk⟩
    · exact fun hp => hn ht (hsk.symm.trans hp ▸ hw.bound)
    · exact fun hp => hi.pending hx' (hsk.symm.trans hp)
  · intro hc
    have hrc := hi.client hc
    have hdown : (w.afterParent src l b (w.parent.run src buf sock forks io)).down = w.down := by
      rw [afterParent, hi.parent_quiet hoc hrc.kid hm, post_none]
    constructor
    · rw [hport]
      exact hrc.addr
    · exact h.children_ne_nil hrc.kid
    · rw [hport, hdown]
      exact hrc.down
    · rw [hdown]
      exact hrc.data.imp_right (And.imp_left h.past)

/-- A turn of the child. -/
theorem Staged.child (hi : w.Staged) {k : ℕ} {v' : Server} {up : Addr → List Datagram}
    {b : List Packet} {out : Option Packet}
    (h : Turn .lossy w e (w.afterChild k up b (v', out)))
    (hu : ∀ x, ∀ d ∈ up x, d ∈ w.up x) (hs : v'.mvSocket ≠ w.port)
    (hv : v'.mvState = .init → 1 ≤ v'.mvSequence.toNat ∧ v'.mvSequence.toNat ≤ 5)
    (hout : ∀ p, out = some p → (w.afterChild k up b (v', out)).Known ⟨v'.mvSocket, p⟩ ∧
      (w.Past → p.type = pktTypeDAT) ∧
      ∀ x, ∀ d ∈ w.down x, stage w.port d ≤ stage w.port ⟨v'.mvSocket, p⟩) :
    (w.afterChild k up b (v', out)).Staged := by
  refine ⟨hi.toLanes.sends h rfl fun p hp => ⟨(hout p hp).1, (hout p hp).2.2⟩,
    fun d hd => hi.atPort d (hu _ d hd), ?_, forall_set hi.kids ⟨hs, hv⟩, hi.pending, ?_⟩
  · exact hi.up.imp h.past fun hup x d hd => hup x d (hu x d hd)
  · intro hc
    have hrc := hi.client hc
    refine ⟨hrc.addr, h.children_ne_nil hrc.kid, ?_, hrc.data.imp_right ?_⟩
    · intro d hd
      rcases mem_post.mp hd with hd | ⟨-, p, -, rfl⟩
      · exact hrc.down d hd
      · exact hs
    · rintro ⟨hp, hdata⟩
      refine ⟨h.past hp, ?_⟩
      intro d hd
      rcases mem_post.mp hd with hd | ⟨-, p, hp', rfl⟩
      · exact hdata d hd
      · exact (hout p hp').2.1 hp

/-- A queue on the way up got shorter. -/
theorem Staged.upShed (hi : w.Staged) {x : Addr} {l : List Datagram}
    (h : Turn .lossy w e { w with up := Function.update w.up x l })
    (hl : ∀ d ∈ l, d ∈ w.up x) : Staged { w with up := Function.update w.up x l } := by
  have hup (y : Addr) (d : Datagram) (hd : d ∈ Function.update w.up x l y) : d ∈ w.up y :=
    mem_update hl hd
  exact ⟨hi.toLanes.shed h fun _ => List.Sublist.refl _, fun d hd => hi.atPort d (hup _ d hd),
    hi.up.imp_right fun hu y d hd => hu y d (hup y d hd), hi.kids, hi.pending,
    fun hc => { hi.client hc with }⟩

/-- A turn of the client in `init`. -/
theorem Staged.clientInit (hi : w.Staged) (hs : w.client.mvState = .init) {a : Arrival}
    {sock : Addr} {r : Recv} {l : List Datagram} {io : Bool} {b : List Addr} {c : Client}
    (h : Turn .lossy w e
      (w.afterClient (Function.update w.down w.client.mvSocket l) b (c, none)))
    (hal : a.allowed .lossy) (ha : a.recv (w.down w.client.mvSocket) = some (r, l))
    (ht : w.client.InitTurn sock r io c) :
    (w.afterClient (Function.update w.down w.client.mvSocket l) b (c, none)).Staged := by
  have hsub (x : Addr) :
      (Function.update w.down w.client.mvSocket l x).Sublist (w.down x) := by
    by_cases hx : x = w.client.mvSocket
    · subst hx
      rw [Function.update_self]
      exact (Arrival.recv_shed hal ha).sublist
    · rw [Function.update_of_ne hx]
  have hup : (w.afterClient (Function.update w.down w.client.mvSocket l) b (c, none)).up = w.up :=
    post_none _ _ _
  refine ⟨hi.toLanes.shed h hsub, ?_, ?_, hi.kids, hi.pending, ?_⟩
  · rw [hup]
    intro d hd
    obtain ⟨j, h0, h5, hj⟩ := hi.atPort d hd
    exact ⟨j, h0, h5, hj.trans (congrFun ht.pkt_eq j).symm⟩
  · rw [hup]
    exact hi.up
  · intro hc
    cases ht with
    | again | opens | switches | back | onward | fail => simp [afterClient, hs] at hc
    | @leaves src buf _ hok hon hi4 =>
      have hq := (Arrival.recv_clean rfl hal ha).head rfl
      have hmem := (Arrival.recv_clean rfl hal ha).mem
      -- a reply of the parent does not take the client out of `init`
      have hsrc : src ≠ w.port := by
        rcases hi.known _ _ hmem with ⟨-, hrr, hle⟩ | ⟨hne, -⟩
        · rcases hon with ⟨-, hq4, -⟩ | ⟨hrej, -⟩ | ⟨hno, -⟩
          · dsimp only at hle
            omega
          · simp [hrej] at hrr
          · exact absurd hrr hno
        · exact hne
      have hne : w.children ≠ [] := by
        rcases hi.known _ _ hmem with ⟨hp, -⟩ | ⟨-, hne, -⟩
        · exact absurd hp hsrc
        · exact hne
      refine ⟨hsrc, hne, ?_, .inl rfl⟩
      intro d hd
      simp only [afterClient, Function.update_self] at hd
      exact (hi.toLanes.behind hq hsrc).1 d hd

/-- A turn of the client in `RECV_PACKETS`. -/
theorem Staged.clientHear (hi : w.Staged) (hs : w.client.mvState = .recvPackets) {a : Arrival}
    {r : Recv} {l : List Datagram} {wr io : Bool} {b : List Addr} {c : Client}
    {out : Option Packet}
    (h : Turn .lossy w e
      (w.afterClient (Function.update w.down w.client.mvSocket l) b (c, out)))
    (hal : a.allowed .lossy) (ha : a.recv (w.down w.client.mvSocket) = some (r, l))
    (ht : w.client.Turn r wr io c out)
    (haddr : c.mvAddr = w.client.mvAddr ∨ ∃ d ∈ w.down w.client.mvSocket, c.mvAddr = d.src) :
    (w.afterClient (Function.update w.down w.client.mvSocket l) b (c, out)).Staged := by
  have hrc := hi.client hs
  have hshed := Arrival.recv_shed hal ha
  have hne : c.mvAddr ≠ w.port := by
    rcases haddr with he | ⟨d, hd, he⟩
    · exact he ▸ hrc.addr
    · exact he ▸ hrc.down d hd
  have hsub (x : Addr) :
      (Function.update w.down w.client.mvSocket l x).Sublist (w.down x) := by
    by_cases hx : x = w.client.mvSocket
    · subst hx
      rw [Function.update_self]
      exact hshed.sublist
    · rw [Function.update_of_ne hx]
  refine ⟨hi.toLanes.shed h hsub, ?_, ?_, hi.kids, hi.pending, ?_⟩
  · intro d hd
    rcases mem_post.mp hd with hd | ⟨hp, -⟩
    · obtain ⟨j, h0, h5, hj⟩ := hi.atPort d hd
      exact ⟨j, h0, h5, hj.trans (congrFun ht.pkt_eq j).symm⟩
    · exact absurd hp.symm hne
  · by_cases hp : w.Past
    · exact .inl (h.past hp)
    · refine .inr ?_
      intro x d hd
      rcases mem_post.mp hd with hd | ⟨-, p, rfl, rfl⟩
      · exact hi.up.resolve_left hp x d hd
      · have hq := hrc.data.resolve_right fun hr => hp hr.1
        rw [ht.out_zero hq]
        decide
  · intro hc
    have hdown : (w.afterClient (Function.update w.down w.client.mvSocket l) b (c, out)).down
        c.mvSocket = l := by
      rw [ht.socket]
      exact Function.update_self ..
    have hl : ∀ d ∈ l, d ∈ w.down w.client.mvSocket := fun d => hshed.sub
    refine ⟨hne, hrc.kid, fun d hd => hrc.down d (hl d (hdown ▸ hd)), ?_⟩
    have hdata (hr : w.Past ∧ ∀ d ∈ w.down w.client.mvSocket, d.pkt.type = pktTypeDAT) :
        w.Past ∧ ∀ d ∈ l, d.pkt.type = pktTypeDAT := ⟨hr.1, fun d hd => hr.2 d (hl d hd)⟩
    change c.mvSequence = 0 ∨ w.Past ∧ ∀ d ∈ (w.afterClient _ b (c, out)).down c.mvSocket, _
    rw [hdown]
    cases ht with
    | nag | old | gap => exact hrc.data.imp_right hdata
    | @accept src buf hok hq hsh =>
      refine .inr (hrc.data.elim ?_ hdata)
      -- the first packet the client counts is data
      intro h0
      have hhead := (Arrival.recv_clean rfl hal ha).head rfl
      have hmem := (Arrival.recv_clean rfl hal ha).mem
      have hsrc := hrc.down _ hmem
      rcases hi.known _ _ hmem with ⟨hp, -⟩ | ⟨-, -, ⟨hdat, hp⟩ | ⟨-, hpos⟩⟩
      · exact absurd hp hsrc
      · exact ⟨hp, (hi.toLanes.behind hhead hsrc).2 hdat⟩
      · have hz : buf.sequence = 0 := hq.trans h0
        simp [hz] at hpos
    | finish | unsent | unwritten | fail => simp [afterClient] at hc

/-- **Every step keeps the stages apart.** -/
theorem Staged.step (hi : w.Staged) (hw : w.Wf) (hoc : w.OnlyChild) (h : Turn .lossy w e t)
    (hn : w.next e = some t) : t.Staged := by
  have hturn := h
  cases h with
  | parentStops => exact { hi with client := fun hc => { hi.client hc with } }
  | @parentDrops a sock src forks io buf l hok ha hs =>
    rw [afterParent_drop] at hturn ⊢
    exact hi.upShed hturn fun _ => hs.sub
  | parent hn' hok ha ht =>
    exact hi.parent hw hoc hturn (fun hc => (hn' hc).1) ht.mem fun _ => ht.sub
  | @childAct k io v v' out hk hd ht hst =>
    have hv := List.mem_of_getElem? hk
    have hsock : v'.mvSocket ≠ w.port := ht.socket ▸ (hi.kids v hv).1
    refine hi.child hturn (fun _ _ h => h) hsock (fun hs => absurd hs (ht.ne_init hd)) ?_
    rintro p rfl
    have hdat := ((hw.data v hv).2 p ht.out_mem).2
    refine ⟨.inr ⟨hsock, hturn.children_ne_nil (List.ne_nil_of_mem hv), .inl ⟨hdat, ?_⟩⟩,
      fun _ => hdat, fun x d _ => ?_⟩
    · exact ⟨v', mem_set_self hk, ht.ne_init hd⟩
    · rw [stage_data (d := ⟨_, p⟩) hsock hdat]
      exact stage_le_two _ _
  | @childInit k a io v v' r l out hk hs hal ha ht hst =>
    have hv := List.mem_of_getElem? hk
    have hup (x : Addr) (d : Datagram) :=
      mem_update (x := x) (d := d) fun _ => (Arrival.recv_shed hal ha).sub
    -- the only child is not past `init`
    have hpast : ¬ w.Past := by
      rintro ⟨u, hu, hne⟩
      obtain ⟨⟨x, hx⟩, -⟩ := hoc.one.resolve_left (List.ne_nil_of_mem hv)
      rw [hx, List.mem_singleton] at hu hv
      exact hne (hu.trans hv.symm ▸ hs)
    have hsock : v'.mvSocket ≠ w.port :=
      (ht.stays (hw.loop v hv hs)).2.2.2 ▸ (hi.kids v hv).1
    obtain ⟨hsmall, hrep⟩ := ht.small ((hi.kids v hv).2 hs) fun src buf hb hok => by
      subst hb
      exact hi.up.resolve_left hpast _ _ (Arrival.recv_ok hal ha hok).mem
    refine hi.child hturn hup hsock hsmall ?_
    intro p hp
    obtain ⟨hno, hpos⟩ := hrep p hp
    refine ⟨.inr ⟨hsock, hturn.children_ne_nil (List.ne_nil_of_mem hv), .inr ⟨hno, hpos⟩⟩,
      fun h => absurd h hpast, fun x d hd => ?_⟩
    rw [stage_reply (d := ⟨_, p⟩) hsock hno]
    rcases hi.known x d hd with ⟨hd0, -⟩ | ⟨hsrc, -, ⟨-, hp'⟩ | ⟨hno', -⟩⟩
    · rw [stage_parent hd0]
      omega
    · exact absurd hp' hpast
    · rw [stage_reply hsrc hno']
  | @childHear k a io v v' r l out hk hd hal ha ht hst =>
    have hv := List.mem_of_getElem? hk
    have hup (x : Addr) (d : Datagram) :=
      mem_update (x := x) (d := d) fun _ => (Arrival.recv_shed hal ha).sub
    have hsock : v'.mvSocket ≠ w.port := ht.socket ▸ (hi.kids v hv).1
    refine hi.child hturn hup hsock (fun hs => absurd hs (ht.ne_init hd)) ?_
    rintro p rfl
    have hdat := ((hw.data v hv).2 p ht.out_mem).2
    refine ⟨.inr ⟨hsock, hturn.children_ne_nil (List.ne_nil_of_mem hv), .inl ⟨hdat, ?_⟩⟩,
      fun _ => hdat, fun x d _ => ?_⟩
    · exact ⟨v', mem_set_self hk, ht.ne_init hd⟩
    · rw [stage_data (d := ⟨_, p⟩) hsock hdat]
      exact stage_le_two _ _
  | clientSends hs hsent =>
    obtain ⟨h0, h5, -⟩ := hw.client hs
    refine ⟨hi.toLanes.shed hturn fun _ => List.Sublist.refl _, ?_, ?_, hi.kids, hi.pending, ?_⟩
    · intro d hd
      rcases mem_post.mp hd with hd | ⟨-, p, hp, rfl⟩
      · exact hi.atPort d hd
      · obtain rfl := Option.some.inj hp
        exact ⟨_, h0, h5, rfl⟩
    · refine hi.up.imp_right ?_
      intro hu x d hd
      rcases mem_post.mp hd with hd | ⟨-, p, hp, rfl⟩
      · exact hu x d hd
      · obtain rfl := Option.some.inj hp
        have hq := Client.pkt_sequence (c := w.client) h0 h5
        dsimp only
        omega
    · intro hc
      simp [afterClient, hs] at hc
  | clientStops hs =>
    have hup :
        (w.afterClient w.down w.bound ({ w.client with mvState := .error }, none)).up = w.up :=
      post_none _ _ _
    refine ⟨hi.toLanes.shed hturn fun _ => List.Sublist.refl _, ?_, ?_, hi.kids, hi.pending,
      by simp [afterClient]⟩
    · rw [hup]
      exact hi.atPort
    · rw [hup]
      exact hi.up
  | clientInit hn' hs hsent hal ha ht => exact hi.clientInit hs hturn hal ha ht
  | clientHear hs hal ha ht =>
    have hpeer := (clientHear_peer rfl hal hn).resolve_right (by simp [hs])
    exact hi.clientHear hs hturn hal ha ht hpeer.2
  | noiseUp hno => exact hi.upShed hturn fun _ => hno.sub
  | @noiseDown _ x l hno =>
    have hsub (y : Addr) : (Function.update w.down x l y).Sublist (w.down y) := by
      by_cases hy : y = x
      · subst hy
        rw [Function.update_self]
        exact hno.sublist rfl
      · rw [Function.update_of_ne hy]
    refine ⟨hi.toLanes.shed hturn hsub, hi.atPort, hi.up, hi.kids, hi.pending, ?_⟩
    intro hc
    have hrc := hi.client hc
    exact ⟨hrc.addr, hrc.kid, fun d hd => hrc.down d ((hsub _).subset hd),
      hrc.data.imp_right (And.imp_right fun h d hd => h d ((hsub _).subset hd))⟩

variable {from_ : List UInt8} {bufsz winsz : Int32} {contents : List UInt8}

theorem staged_of_reach (h : (system from_ bufsz winsz .lossy).Reach w) : w.Staged := by
  refine h.invariant (I := Staged) ?_ ?_
  · intro w h0
    obtain ⟨sock, sk, addr, -, hc⟩ := h0.client
    refine ⟨⟨by simp [h0.down], by simp [h0.down]⟩, by simp [h0.up], .inr (by simp [h0.up]),
      by simp [h0.children], by simp [h0.parent.cxn2], by simp [hc, Client.rcopy]⟩
  · intro w e t hr hi hm hn
    have hw := wf_of_reach hr
    exact hi.step hw (onlyChild_of_reach hr) (next_cases hw hm hn) hn

/-! ## 5. No late reply passes for data -/

/-- **What the client waits for in `RECV_PACKETS` is data.** -/
theorem Staged.unmixed (hi : w.Staged) (hm : may .lossy w e) : w.Unmixed e := by
  cases e with
  | clientHear a sock wr io =>
    rintro hs ⟨r, l⟩ ha
    have hrc := hi.client hs
    cases r with
    | timeout | failed => rfl
    | datagram src buf =>
      have hmem := (Arrival.recv_clean rfl hm.1 (Option.mem_def.mp ha)).mem
      by_contra hrep
      obtain ⟨-, htype, hq⟩ : buf.ok = true ∧ (buf.type = pktTypeRR ∨ buf.type = pktTypeREJ) ∧
          buf.sequence = w.client.mvSequence := by
        simpa [Recv.replies] using hrep
      have hdat : buf.type ≠ pktTypeDAT := by rcases htype with h | h <;> simp [h]
      rcases hrc.data with h0 | ⟨-, hall⟩
      · rcases hi.known _ _ hmem with ⟨hp, -⟩ | ⟨-, -, ⟨hd, -⟩ | ⟨-, hpos⟩⟩
        · exact hrc.down _ hmem hp
        · exact hdat hd
        · have hz : buf.sequence = 0 := hq.trans h0
          simp [hz] at hpos
      · exact hdat (hall _ hmem)
  | _ => trivial

/-- What links that only lose do, links that do anything do. -/
theorem may_free (h : may .lossy w e) : may .free w e := by
  cases e with
  | parentHear a => exact ⟨a.allowed_free, h.2⟩
  | clientHear a => exact ⟨a.allowed_free, h.2⟩
  | childHear k a => exact a.allowed_free
  | childAct | clientAct => trivial
  | loseUp | dupUp | loseDown | dupDown => rfl

theorem reach_unmixed (h : (system from_ bufsz winsz .lossy).Reach w) :
    ((system from_ bufsz winsz .free).under Unmixed).Reach w := by
  refine h.invariant (M := system from_ bufsz winsz .lossy)
    (I := ((system from_ bufsz winsz .free).under Unmixed).Reach) (fun _ h0 => ⟨_, h0, .refl⟩) ?_
  intro w e t hr hi hm hn
  exact hi.step ⟨may_free hm, (staged_of_reach hr).unmixed hm⟩ hn

/-- **Over links that only lose, the output is the file**, and nothing is assumed of the run: no
reply that reaches `recvPackets` changes the counter or the output, the output file is a part of
the served file from its start on, and all of it when the client is done. -/
theorem lossy_output_safe (from_ : List UInt8) (bufsz winsz : Int32) (contents : List UInt8)
    (hs : Serves from_ bufsz winsz contents) (w : World)
    (h : (system from_ bufsz winsz .lossy).Reach w) :
    w.client.mvTo <+: contents ∧ (w.client.mvState = .done → w.client.mvTo = contents) ∧
    ∀ e t, may .lossy w e → w.next e = some t → Inert w t e := by
  obtain ⟨K, hi⟩ := delivers_of_reach hs (reach_unmixed h)
  refine ⟨hi.client.part, ?_, ?_⟩
  · intro hc
    exact (hi.client.copied (by simp [hc])).1.done hc
  · intro e t hm hn
    have hno := (staged_of_reach h).unmixed hm
    cases e with
    | clientHear a sock wr io =>
      intro hc src buf l ha htype
      have hno := hno hc _ (Option.mem_def.mpr ha)
      obtain ⟨⟨r, l'⟩, ha', hn⟩ := Option.bind_eq_some_iff.mp hn
      obtain ⟨⟨c, out⟩, hst, rfl⟩ := Option.map_eq_some_iff.mp hn
      obtain ⟨rfl, rfl⟩ := Prod.mk.inj (Option.some.inj (ha.symm.trans ha'))
      refine (Client.step_cases (by simp [hc]) hst).2.inert ?_
      intro hok hq
      rcases htype with htype | htype <;> simp [Recv.replies, hok, hq, htype] at hno
    | _ => trivial

end World

end Fileserver

namespace Fileserver

open Proto

namespace World

local instance inOrderHost : Host := refHost [1, 2, 3]

/-- The `BUF` packet is lost on the way and sent again; the client is done all the same. -/
theorem lossy_output_safe_lost :
    ∃ w, (system [0x66] 2 3 .lossy).Reach w ∧ w.client.mvState = .done ∧
      w.client.mvTo = [1, 2, 3] := by
  have h0 : (system [0x66] 2 3 .lossy).Reach (atStart [0x66] 2 3) := .start (atStart_start _ _ _)
  obtain ⟨w, h, hw⟩ := h0.run_any (connect ++
      [.clientAct true, .loseUp ⟨1, 21⟩ 0, .clientHear .timeout ⟨2, 18⟩ true true] ++
      [13, 14, 15, 16, 17].flatMap exchange ++ delivery)
    (fun w => decide (w.client.mvState = .done)) (by decide +kernel)
  have hdone := of_decide_eq_true hw
  exact ⟨w, h, hdone, (lossy_output_safe [0x66] 2 3 [1, 2, 3] serves_three w h).2.1 hdone⟩

end World

end Fileserver
