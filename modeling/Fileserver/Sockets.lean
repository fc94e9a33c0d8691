/-
# Everyone has a socket of his own

`Server::Run` has one variable for the socket of the next child, and it is overwritten by every
`CXN`.  What keeps two children from being forked with the same socket is the flag `cxn2`, which is
up from the moment a socket was opened to the moment it was given away.

So whatever comes in, and in whatever order, no two children ever listen on one socket
(`sockets_apart`), and what waits for a child waits until the child takes it.
-/
import Fileserver.OnlyChild

namespace Fileserver

open Proto

namespace World

/-! ## 1. Sockets -/

/-- **Sockets are given away once.**  Those of the parent and the children are different, and the
one that is waiting to be given away is nobody's. -/
structure Leased (w : World) : Prop where
  apart : (w.port :: w.children.map Server.mvSocket).Nodup
  bound : ∀ v ∈ w.children, v.mvSocket ∈ w.bound
  pending : w.parent.cxn2 = true →
    w.parent.sk ∈ w.bound ∧ w.parent.sk ∉ w.port :: w.children.map Server.mvSocket

variable {w t : World}

theorem map_socket_set {l : List Server} {k : ℕ} {v v' : Server} (hk : l[k]? = some v)
    (hs : v'.mvSocket = v.mvSocket) : (l.set k v').map Server.mvSocket = l.map Server.mvSocket := by
  rw [List.map_set, hs]
  apply List.ext_getElem?
  intro i
  by_cases hi : k = i
  · subst hi
    rw [List.getElem?_set_self', List.getElem?_map, hk]
    rfl
  · rw [List.getElem?_set_ne hi]

/-- Nothing has changed but that more addresses are in use. -/
theorem Leased.keep (hi : w.Leased) (hp : t.parent = w.parent)
    (hs : t.children.map Server.mvSocket = w.children.map Server.mvSocket)
    (hb : ∀ x ∈ w.bound, x ∈ t.bound) : t.Leased := by
  have hport : t.port = w.port := congrArg (fun p => p.server.mvSocket) hp
  refine ⟨?_, ?_, ?_⟩
  · rw [hport, hs]
    exact hi.apart
  · intro v hv
    have hm : v.mvSocket ∈ t.children.map Server.mvSocket := List.mem_map_of_mem hv
    rw [hs] at hm
    obtain ⟨u, hu, he⟩ := List.mem_map.mp hm
    exact hb _ (he ▸ hi.bound u hu)
  · intro hc
    rw [hp] at hc ⊢
    rw [hport, hs]
    exact (hi.pending hc).imp_left (hb _)

variable [Host] {n : Link} {e : Event}

/-- A turn of the parent. -/
theorem Leased.parent (hi : w.Leased) (hw : w.Wf) {src sock : Addr} {forks io : Bool}
    {buf : Packet} {l : List Datagram} (hn : buf.type = pktTypeCXN → sock ∉ w.bound)
    (hok : buf.ok = true) :
    (w.afterParent src l (w.bind (Parent.opensOn (.datagram src buf)) sock)
      (w.parent.run src buf sock forks io)).Leased := by
  have hport := port_afterParent w src src l
    (w.bind (Parent.opensOn (.datagram src buf)) sock) sock buf forks io
  cases hv : (w.parent.run src buf sock forks io).2.2 with
  | some v =>
    -- the socket that was waiting is given away
    obtain ⟨ht, hx, rfl⟩ := Parent.run_child (Option.mem_def.mpr hv)
    obtain ⟨hb, hfree⟩ := hi.pending hx
    have hsockets : (w.children ++ [w.parent.server.forked w.parent.sk src]).map Server.mvSocket =
        w.children.map Server.mvSocket ++ [w.parent.sk] := by
      rw [List.map_append]
      rfl
    refine ⟨?_, ?_, ?_⟩
    · rw [hport, afterParent, hv]
      simp only [Option.toList_some, hsockets]
      rw [← List.cons_append, List.nodup_append]
      refine ⟨hi.apart, by simp, ?_⟩
      rintro x hx y hy rfl
      exact hfree (List.mem_singleton.mp hy ▸ hx)
    · rw [afterParent, hv]
      intro u hu
      rcases List.mem_append.mp hu with hu | hu
      · exact mem_bind (hi.bound u hu)
      · obtain rfl := List.mem_singleton.mp hu
        exact mem_bind hb
    · intro hc
      have hrun := Parent.run_cxn2 w.parent src sock forks io hok
      have hne : buf.type ≠ pktTypeCXN := by
        rw [ht]
        decide
      rw [if_neg hne, if_pos ht] at hrun
      simp [afterParent, hrun] at hc
  | none =>
    have hsame : (w.afterParent src l (w.bind (Parent.opensOn (.datagram src buf)) sock)
        (w.parent.run src buf sock forks io)).children = w.children := by
      simp [afterParent, hv]
    refine ⟨?_, ?_, ?_⟩
    · rw [hport, hsame]
      exact hi.apart
    · rw [hsame]
      exact fun u hu => mem_bind (hi.bound u hu)
    · intro hc
      rw [hport, hsame]
      rcases Parent.run_pending hc with ⟨ht, hs⟩ | ⟨hx, hs⟩
      · -- a new socket, which nobody uses
        have hnew := hn ht
        have hopen : Parent.opensOn (.datagram src buf) = true := by
          simp [Parent.opensOn, hok, ht]
        simp only [afterParent, hs, hopen, bind, if_true]
        refine ⟨List.mem_cons_self, ?_⟩
        intro hm
        rcases List.mem_cons.mp hm with rfl | hm
        · exact hnew hw.bound
        · obtain ⟨u, hu, rfl⟩ := List.mem_map.mp hm
          exact hnew (hi.bound u hu)
      · simp only [afterParent, hs]
        exact (hi.pending hx).imp_left mem_bind

/-- **Every step keeps the sockets apart.** -/
theorem Leased.step (hi : w.Leased) (hw : w.Wf) (h : Turn n w e t) : t.Leased := by
  cases h with
  | parentStops ha => exact ⟨hi.apart, hi.bound, hi.pending⟩
  | parentDrops hok ha hs =>
    refine hi.keep rfl ?_ fun _ hx => hx
    simp [afterParent]
  | parent hn hok ha ht => exact hi.parent hw (fun hc => (hn hc).1) hok
  | childAct hk hd ht => exact hi.keep rfl (map_socket_set hk ht.socket) fun _ hx => hx
  | @childInit k a io v v' r l out hk hs hal ha ht =>
    have hl := hw.loop v (List.mem_of_getElem? hk) hs
    exact hi.keep rfl (map_socket_set hk (ht.stays hl).2.2.2) fun _ hx => hx
  | childHear hk hd hal ha ht =>
    exact hi.keep rfl (map_socket_set hk ht.socket) fun _ hx => hx
  | clientSends | clientStops => exact hi.keep rfl rfl fun _ hx => hx
  | clientInit | clientHear => exact hi.keep rfl rfl fun _ hx => mem_bind hx
  | noiseUp | noiseDown => exact hi.keep rfl rfl fun _ hx => hx

theorem leased_of_reach {from_ : List UInt8} {bufsz winsz : Int32}
    (h : (system from_ bufsz winsz n).Reach w) : w.Leased := by
  have hboth : w.Wf ∧ w.Leased := by
    refine h.invariant (I := fun w => Wf w ∧ Leased w) ?_ ?_
    · intro w h0
      refine ⟨Start.wf h0, by simp [h0.children], by simp [h0.children], ?_⟩
      simp [h0.parent.cxn2]
    · intro w e t _ hi hm hn
      have ht := next_cases hi.1 hm hn
      exact ⟨ht.wf hi.1, hi.2.step hi.1 ht⟩
  exact hboth.2

/-! ## 2. What lies in a queue -/

/-- The event is a turn of child `j`, or something that happens to what is on its way to `x`. -/
def Event.concerns (j : ℕ) (x : Addr) : Event → Prop
  | .childAct k _ => k = j
  | .childHear k _ _ => k = j
  | .loseUp y _ => y = x
  | .dupUp y _ => y = x
  | _ => False

omit [Host] in
/-- A packet posted anywhere leaves what is there. -/
theorem post_extends (q : Addr → List Datagram) (dst src x : Addr) (out : Option Packet) :
    q x <+: post q dst src out x := by
  unfold post
  by_cases hx : x = dst
  · subst hx
    rw [Function.update_self]
    exact List.prefix_append _ _
  · rw [Function.update_of_ne hx]

/-- **Nobody else touches a child and its queue.** -/
theorem Leased.frame (hi : w.Leased) (hn : w.next e = some t) {j : ℕ} {v : Server}
    (hj : w.children[j]? = some v) (he : ¬ e.concerns j v.mvSocket) :
    t.children[j]? = some v ∧ w.up v.mvSocket <+: t.up v.mvSocket := by
  have hv := List.mem_of_getElem? hj
  have hport : v.mvSocket ≠ w.port := by
    intro hx
    exact (List.nodup_cons.mp hi.apart).1 (hx ▸ List.mem_map_of_mem hv)
  -- two children, two sockets
  have hother {k : ℕ} {u : Server} (hk : w.children[k]? = some u) (hne : k ≠ j) :
      v.mvSocket ≠ u.mvSocket := by
    intro hx
    have hnd := (List.nodup_cons.mp hi.apart).2
    have hlt : k < (w.children.map Server.mvSocket).length := by
      rw [List.length_map]
      exact (List.getElem?_eq_some_iff.mp hk).1
    exact hne ((List.getElem?_inj hlt hnd).mp (by
      rw [List.getElem?_map, List.getElem?_map, hk, hj, Option.map_some, Option.map_some, hx]))
  have hset {k : ℕ} (u : Server) (hne : k ≠ j) : (w.children.set k u)[j]? = some v := by
    rwa [List.getElem?_set_ne hne]
  cases e with
  | parentHear a sock forks io =>
    simp only [next, Option.ite_none_left_eq_some] at hn
    obtain ⟨-, hn⟩ := hn
    split at hn
    · obtain rfl := Option.some.inj hn
      refine ⟨?_, ?_⟩
      · rw [afterParent, List.getElem?_append_left (List.getElem?_eq_some_iff.mp hj).1]
        exact hj
      · simp only [afterParent, Function.update_of_ne hport]
        exact List.prefix_refl _
    · obtain rfl := Option.some.inj hn
      exact ⟨hj, List.prefix_refl _⟩
    · simp at hn
    · simp at hn
  | childAct k io =>
    obtain ⟨u, hk, hn⟩ := Option.bind_eq_some_iff.mp hn
    obtain ⟨x, hst, rfl⟩ := Option.map_eq_some_iff.mp hn
    exact ⟨hset _ he, List.prefix_refl _⟩
  | childHear k a io =>
    obtain ⟨u, hk, hn⟩ := Option.bind_eq_some_iff.mp hn
    obtain ⟨x, ha, hn⟩ := Option.bind_eq_some_iff.mp hn
    obtain ⟨y, hst, rfl⟩ := Option.map_eq_some_iff.mp hn
    refine ⟨hset _ he, ?_⟩
    simp only [afterChild, Function.update_of_ne (hother hk he)]
    exact List.prefix_refl _
  | clientAct io =>
    obtain ⟨x, hst, rfl⟩ := Option.map_eq_some_iff.mp hn
    exact ⟨hj, post_extends ..⟩
  | clientHear a sock wr io =>
    obtain ⟨x, ha, hn⟩ := Option.bind_eq_some_iff.mp hn
    obtain ⟨y, hst, rfl⟩ := Option.map_eq_some_iff.mp hn
    exact ⟨hj, post_extends ..⟩
  | loseUp y i | dupUp y i =>
    obtain rfl := Option.some.inj hn
    refine ⟨hj, ?_⟩
    have hne : v.mvSocket ≠ y := fun hx => he hx.symm
    simp only [Function.update_of_ne hne]
    exact List.prefix_refl _
  | loseDown y i | dupDown y i =>
    obtain rfl := Option.some.inj hn
    exact ⟨hj, List.prefix_refl _⟩

/-- **No two processes share a socket.**  In every run of the whole program, over links of any kind
and with any number of children, the parent and the children listen on different sockets, and the
one the parent has opened for the next child is nobody's.  So no step but a turn of the child itself
changes a child, and none but this and the network takes anything out of its queue. -/
theorem sockets_apart (from_ : List UInt8) (bufsz winsz : Int32) (n : Link) (w : World)
    (h : (system from_ bufsz winsz n).Reach w) :
    (w.port :: w.children.map Server.mvSocket).Nodup ∧
      (w.parent.cxn2 = true → w.parent.sk ∉ w.port :: w.children.map Server.mvSocket) ∧
      ∀ e t j v, w.next e = some t → w.children[j]? = some v → ¬ e.concerns j v.mvSocket →
        t.children[j]? = some v ∧ w.up v.mvSocket <+: t.up v.mvSocket := by
  have hi := leased_of_reach h
  refine ⟨hi.apart, fun hc => (hi.pending hc).2, ?_⟩
  intro e t j v hn hj he
  exact hi.frame hn hj he

end World

end Fileserver

namespace Fileserver.World

open Proto

local instance socketsHost : Host := refHost [1, 2, 3]

/-- A client whose requests come twice has two children, on two sockets. -/
theorem sockets_apart_two :
    ∃ w, (system [0x66] 2 3 .free).Reach w ∧ w.children.length = 2 ∧
      (w.port :: w.children.map Server.mvSocket).Nodup := by
  have h0 : (system [0x66] 2 3 .free).Reach (atStart [0x66] 2 3) :=
    .start (atStart_start _ _ _)
  obtain ⟨w, h, hw⟩ := h0.run_any
    [.clientAct true, .dupUp ⟨1, 7⟩ 0, .parentHear (.take 0) ⟨1, 21⟩ true true,
     .clientHear (.take 0) ⟨2, 11⟩ true true, .clientAct true, .dupUp ⟨1, 7⟩ 1,
     .parentHear (.take 1) ⟨1, 22⟩ true true, .parentHear (.take 0) ⟨1, 23⟩ true true,
     .parentHear (.take 0) ⟨1, 24⟩ true true]
    (fun w => decide (w.children.length = 2)) (by decide +kernel)
  exact ⟨w, h, of_decide_eq_true hw, (sockets_apart [0x66] 2 3 .free w h).1⟩

end Fileserver.World
