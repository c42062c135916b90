import LCore.Frame
import LCore.Lib.Crc8

/-!
# Multi-hop Delivery

A frame travels from node to node by the tables of the nodes it passes: `hop cfg s d i` is
where the `i`-th lookup for the destination `d` leads, starting at `s`. The tables may lead
around in circles, or out of the network; `hop` is `none` behind a node that does not exist.

`OnAir` is the set of transmissions one frame causes when the radio delivers each of them
intact to the node it names, which is never the one transmitting, and `Arrives` says that a
node got the frame with the result `ROUTING_RECEIVED`.

## Main results

* `onAir_eq`: the `n`-th transmission, in terms of `hop`.
* `exists_onAir`: a frame on its way to an existing destination keeps moving.
* `multiHop`: a frame arrives exactly when the tables lead to the destination within
  `INIT_TTL + 1` hops, and what arrives.
-/

open Memory

namespace LCore

namespace MultiHop

variable (cfg : Config)

/-- Where the tables lead: `v₀ = s` and `v_(i+1) = routing_table` of `v_i` at `d`. -/
def hop (s d : UInt8) : ℕ → Option UInt8
  | 0 => some s
  | i + 1 => (hop s d i).bind fun a =>
      if a.toNat < cfg.netSize then some (UInt8.ofInt (cfg.tables a d)) else none

/-- The radio delivers a packet transmitted by `u` to the node its `NEXT` byte names. -/
def Delivers (u : UInt8) (p : List UInt8) (x : UInt8) : Prop :=
  p[0]? = some x ∧ x.toNat < cfg.netSize ∧ x ≠ u

/-- The packet `p` is the `n`-th transmission a first packet `p₀` of node `s` leads to, and is
transmitted by node `u`. What a node's buffer held before is arbitrary. -/
inductive OnAir (s : UInt8) (p₀ : List UInt8) : ℕ → UInt8 → List UInt8 → Prop
  | sent : OnAir s p₀ 1 s p₀
  | forwarded {n : ℕ} {u x : UInt8} {p q : List UInt8} {buf : Mem UInt8} {frame : LoraFrame} :
      OnAir s p₀ n u p → Delivers cfg u p x →
      Routing.tryReceive (cfg.device x) buf p = (.forwarded, frame, some q) →
      OnAir s p₀ (n + 1) x q

/-- Node `x` receives the `n`-th transmission as its own. -/
def Arrives (s : UInt8) (p₀ : List UInt8) (n : ℕ) (x : UInt8) (frame : LoraFrame) : Prop :=
  ∃ u p buf, OnAir cfg s p₀ n u p ∧ Delivers cfg u p x ∧
    Routing.tryReceive (cfg.device x) buf p = (.received, frame, none)

/-- The tables lead from `s` to `d` in `h` hops within the hop limit, and not in fewer. -/
def FirstArrival (s d : UInt8) (h : ℕ) : Prop :=
  1 ≤ h ∧ h ≤ initTtl.toNat + 1 ∧ hop cfg s d h = some d ∧
    ∀ i, 1 ≤ i → i < h → hop cfg s d i ≠ some d

/-- A frame as sent, but for its `NEXT` byte and a hop counter that has been decremented in
each of `n - 1` hops. -/
structure AsSent (p₀ : List UInt8) (n : ℕ) (frame : LoraFrame) : Prop where
  size : frame.size = UInt8.ofNat p₀.length
  ttl : (frame.buf framePosTtl).toNat = initTtl.toNat - (n - 1)
  bytes : ∀ i : ℕ, (h : i < p₀.length) → (i : ℤ) ≠ framePosNextAddr → (i : ℤ) ≠ framePosTtl →
    frame.buf i = p₀[i]

/-! ### Where the tables lead -/

variable {cfg} {s d : UInt8}

/-- The next hop comes from the table of the last one. -/
theorem hop_succ_eq_some {i : ℕ} {x : UInt8} :
    hop cfg s d (i + 1) = some x ↔
      ∃ a, hop cfg s d i = some a ∧ a.toNat < cfg.netSize ∧
        UInt8.ofInt (cfg.tables a d) = x := by
  rw [hop, Option.bind_eq_some_iff]
  refine exists_congr fun a => and_congr_right fun _ => ?_
  rw [Option.ite_none_right_eq_some, Option.some.injEq]

/-- The path up to a node that is reached passes nodes of the network only. -/
theorem exists_hop_of_le {h i : ℕ} (hle : i ≤ h) {x : UInt8} (hx : hop cfg s d h = some x) :
    ∃ a, hop cfg s d i = some a := by
  induction h generalizing x with
  | zero =>
      obtain rfl : i = 0 := by omega
      exact ⟨x, hx⟩
  | succ h ih =>
      by_cases heq : i = h + 1
      · exact ⟨x, heq ▸ hx⟩
      · obtain ⟨a, ha, -, -⟩ := hop_succ_eq_some.mp hx
        exact ih (by omega) ha

/-- A node that names itself as the next hop is never left. -/
theorem hop_of_self_loop {i : ℕ} {a : UInt8} (hi : hop cfg s d i = some a)
    (hloop : hop cfg s d (i + 1) = some a) (k : ℕ) : hop cfg s d (i + k) = some a := by
  induction k with
  | zero => exact hi
  | succ k ih =>
      obtain ⟨b, hb, hnet, hroute⟩ := hop_succ_eq_some.mp hloop
      obtain rfl : a = b := Option.some.inj (hi.symm.trans hb)
      exact hop_succ_eq_some.mpr ⟨a, ih, hnet, hroute⟩

/-! ### The transmissions -/

section Travel

variable {p₀ payload : List UInt8} {flags : UInt8}

/-- The frame as it leaves its `k + 1`-st node for the node `next`. -/
def relayed (cfg : Config) (s d flags : UInt8) (payload : List UInt8) (k : ℕ) (next : UInt8) :
    List UInt8 :=
  frameBytes cfg.crc next d s flags (UInt8.ofNat (initTtl.toNat - k)) payload

/-- The frame on its way: which node transmits it, for which node, and that it has not passed
its destination. -/
structure Underway (cfg : Config) (s d flags : UInt8) (payload : List UInt8) (k : ℕ)
    (u : UInt8) (p : List UInt8) (next : UInt8) : Prop where
  limit : k ≤ initTtl.toNat
  transmitter : hop cfg s d k = some u
  inNet : u.toNat < cfg.netSize
  named : hop cfg s d (k + 1) = some next
  notYet : ∀ i, 1 ≤ i → i < k + 1 → hop cfg s d i ≠ some d
  packet : p = relayed cfg s d flags payload k next

variable (hs : s.toNat < cfg.netSize) (hd : d.toNat < cfg.netSize) (hlen : payload.length ≤ 93)
  (hp₀ : p₀ = relayed cfg s d flags payload 0 (UInt8.ofInt (cfg.tables s d)))

include hlen in
/-- What a node makes of the frame when it is named as the next hop. -/
theorem Underway.receive {k : ℕ} {u next : UInt8} {p : List UInt8}
    (hp : Underway cfg s d flags payload k u p next) (hd : d.toNat < cfg.netSize)
    (buf : Mem UInt8) :
    ∃ frame, (next = d → Holds frame p ∧
        Routing.tryReceive (cfg.device next) buf p = (.received, frame, none)) ∧
      (next ≠ d → Routing.tryReceive (cfg.device next) buf p =
        if k = initTtl.toNat then (.ttlExpired, frame, none)
        else (.forwarded, frame, some
          (relayed cfg s d flags payload (k + 1) (UInt8.ofInt (cfg.tables next d))))) := by
  have hlimit := hp.limit
  have h4 : initTtl.toNat = 4 := rfl
  rw [hp.packet]
  have hshape : (relayed cfg s d flags payload k next).length = 7 + payload.length := by
    rw [relayed, length_frameBytes]
  have h₇ : 7 ≤ (relayed cfg s d flags payload k next).length := by omega
  obtain ⟨frame, hrecv, hholds⟩ := tryReceive_whole (cfg.device next) buf h₇ (by omega)
  have hfwd : forwardBytes (cfg.device next) (relayed cfg s d flags payload k next) h₇ =
      frameBytes cfg.crc (UInt8.ofInt (cfg.tables next d)) d s flags
        (UInt8.ofNat (initTtl.toNat - k) - 1) payload := rfl
  have h0 : (relayed cfg s d flags payload k next)[0] = (cfg.device next).address := rfl
  have h1 : (relayed cfg s d flags payload k next)[1] = d := rfl
  have h5 : (relayed cfg s d flags payload k next)[5] = UInt8.ofNat (initTtl.toNat - k) := rfl
  have hself : (cfg.device next).address = next := rfl
  have hsize : (cfg.device next).netSize = cfg.netSize := rfl
  have hzero : UInt8.ofNat (initTtl.toNat - k) = 0 ↔ k = initTtl.toNat := by
    rw [← UInt8.toNat_inj, UInt8.toNat_ofNat']
    have : (0 : UInt8).toNat = 0 := rfl
    omega
  rw [if_pos h0, h1, h5, hself, hsize, hfwd] at hrecv
  refine ⟨frame, fun hnext => ?_, fun hnext => ?_⟩
  · rw [if_pos hnext.symm] at hrecv
    exact ⟨hholds h0 (h1.trans hnext.symm), hrecv⟩
  · rw [if_neg (Ne.symm hnext), if_pos hd] at hrecv
    rw [hrecv]
    by_cases hk : k = initTtl.toNat
    · rw [if_pos (hzero.mpr hk), if_pos hk]
    · rw [if_neg fun hz => hk (hzero.mp hz), if_neg hk]
      have httl : UInt8.ofNat (initTtl.toNat - k) - 1 = UInt8.ofNat (initTtl.toNat - (k + 1)) := by
        apply UInt8.toNat_inj.mp
        rw [UInt8.toNat_sub, UInt8.toNat_ofNat', UInt8.toNat_ofNat']
        have : (1 : UInt8).toNat = 1 := rfl
        omega
      rw [httl]
      rfl

include hs hd hlen hp₀

/-- Every transmission is the frame on its way. -/
theorem onAir_eq {n : ℕ} {u : UInt8} {p : List UInt8} (h : OnAir cfg s p₀ n u p) :
    ∃ k next, n = k + 1 ∧ Underway cfg s d flags payload k u p next := by
  induction h with
  | sent =>
      refine ⟨0, UInt8.ofInt (cfg.tables s d), rfl, by decide, rfl, hs, ?_,
        fun i _ _ => by omega, hp₀⟩
      exact hop_succ_eq_some.mpr ⟨s, rfl, hs, rfl⟩
  | @forwarded n u x p q buf frame _ hdeliver hforward ih =>
      obtain ⟨k, next, rfl, hp⟩ := ih
      obtain ⟨hx, hnet, -⟩ := hdeliver
      obtain rfl : next = x := by
        rw [hp.packet] at hx
        exact Option.some.inj hx
      obtain ⟨frame', hhere, hrelay⟩ := hp.receive hlen hd buf
      by_cases hnext : next = d
      · rw [(hhere hnext).2] at hforward
        exact absurd (congrArg Prod.fst hforward) (by simp)
      · rw [hrelay hnext] at hforward
        have hlimit := hp.limit
        by_cases hk : k = initTtl.toNat
        · rw [if_pos hk] at hforward
          exact absurd (congrArg Prod.fst hforward) (by simp)
        · rw [if_neg hk, Prod.mk.injEq, Prod.mk.injEq, Option.some.injEq] at hforward
          obtain ⟨-, -, rfl⟩ := hforward
          refine ⟨k + 1, UInt8.ofInt (cfg.tables next d), rfl, by omega, hp.named, hnet, ?_, ?_,
            rfl⟩
          · exact hop_succ_eq_some.mpr ⟨next, hp.named, hnet, rfl⟩
          · intro i h₁ hi heq
            by_cases hlast : i = k + 1
            · subst hlast
              exact hnext (Option.some.inj (hp.named.symm.trans heq))
            · exact hp.notYet i h₁ (by omega) heq

/-- A frame whose path leads to its destination within the hop limit keeps moving until it is
there, and the radio delivers each transmission. -/
theorem exists_onAir (hsd : s ≠ d) {h : ℕ} (hfirst : FirstArrival cfg s d h) {k : ℕ}
    (hk : k < h) :
    ∃ u p next, OnAir cfg s p₀ (k + 1) u p ∧ Underway cfg s d flags payload k u p next ∧
      Delivers cfg u p next := by
  obtain ⟨h₁, hlimit, harrive, hbefore⟩ := hfirst
  -- the radio refuses only a node that names itself, and such a node is never left
  have hdeliver : ∀ {k u p next}, k < h → Underway cfg s d flags payload k u p next →
      Delivers cfg u p next := by
    intro k u p next hk hp
    refine ⟨by rw [hp.packet]; rfl, ?_, ?_⟩
    · by_cases hlast : k + 1 = h
      · obtain rfl : next = d := Option.some.inj (hp.named.symm.trans (hlast ▸ harrive))
        exact hd
      · obtain ⟨x, hx⟩ := exists_hop_of_le (show k + 1 + 1 ≤ h by omega) harrive
        obtain ⟨a, ha, hnet, -⟩ := hop_succ_eq_some.mp hx
        obtain rfl : next = a := Option.some.inj (hp.named.symm.trans ha)
        exact hnet
    · rintro rfl
      have hstay := hop_of_self_loop hp.transmitter hp.named (h - k)
      rw [show k + (h - k) = h by omega] at hstay
      obtain rfl : next = d := Option.some.inj (hstay.symm.trans harrive)
      by_cases hzero : k = 0
      · subst hzero
        exact hsd (Option.some.inj hp.transmitter)
      · exact hbefore k (by omega) hk hp.transmitter
  induction k with
  | zero =>
      have hair : OnAir cfg s p₀ (0 + 1) s p₀ := .sent
      obtain ⟨k', next, hk', hp⟩ := onAir_eq hs hd hlen hp₀ hair
      obtain rfl : k' = 0 := by omega
      exact ⟨s, p₀, next, hair, hp, hdeliver hk hp⟩
  | succ k ih =>
      obtain ⟨u, p, next, hair, hp, hdel⟩ := ih (by omega)
      obtain ⟨frame, -, hrelay⟩ := hp.receive hlen hd (fun _ => 0)
      have hnext : next ≠ d := by
        rintro rfl
        exact hbefore (k + 1) (by omega) hk hp.named
      have hforward := hrelay hnext
      rw [if_neg (by omega)] at hforward
      have hair' := OnAir.forwarded hair hdel hforward
      obtain ⟨k', next', hk', hp'⟩ := onAir_eq hs hd hlen hp₀ hair'
      obtain rfl : k' = k + 1 := by omega
      exact ⟨_, _, next', hair', hp', hdeliver hk hp'⟩

/-- Whatever arrives anywhere has reached its destination by the shortest way the tables have,
is as sent, and passes the checksum test. -/
theorem arrives_spec {n : ℕ} {x : UInt8} {frame : LoraFrame}
    (h : Arrives cfg s p₀ n x frame) :
    x = d ∧ FirstArrival cfg s d n ∧ AsSent p₀ n frame ∧ crcOk (cfg.device x) frame = true := by
  obtain ⟨u, p, buf, hair, ⟨hx, -, -⟩, hreceived⟩ := h
  obtain ⟨k, next, rfl, hp⟩ := onAir_eq hs hd hlen hp₀ hair
  obtain rfl : next = x := by
    rw [hp.packet] at hx
    exact Option.some.inj hx
  obtain ⟨frame', hhere, hrelay⟩ := hp.receive hlen hd buf
  have hlimit := hp.limit
  by_cases hnext : next = d
  · obtain ⟨hholds, hrecv⟩ := hhere hnext
    rw [hreceived, Prod.mk.injEq, Prod.mk.injEq] at hrecv
    obtain ⟨-, rfl, -⟩ := hrecv
    rw [hp.packet] at hholds
    have hshape : (relayed cfg s d flags payload k next).length = 7 + payload.length := by
      rw [relayed, length_frameBytes]
    have hsame : relayed cfg s d flags payload k next =
        (p₀.set 0 next).set 5 (UInt8.ofNat (initTtl.toNat - k)) := by
      rw [hp₀]
      rfl
    have hlen₀ : p₀.length = 7 + payload.length := by
      rw [hp₀, relayed, length_frameBytes]
    refine ⟨hnext, ⟨by omega, by omega, hnext ▸ hp.named, hp.notYet⟩, ⟨?_, ?_, ?_⟩, ?_⟩
    · rw [hholds.size, hshape, hlen₀]
    · have h5 := hholds.get (i := 5) (by omega)
      have httl : (frame.buf framePosTtl) = UInt8.ofNat (initTtl.toNat - k) := h5
      rw [httl, UInt8.toNat_ofNat']
      have h4 : initTtl.toNat = 4 := rfl
      omega
    · intro i hi hnot₀ hnot₅
      have hi₀ : 0 ≠ i := fun h => hnot₀ (by rw [← h]; rfl)
      have hi₅ : 5 ≠ i := fun h => hnot₅ (by rw [← h]; rfl)
      rw [hholds.get (by omega)]
      simp only [hsame, List.getElem_set_ne hi₅, List.getElem_set_ne hi₀]
    · rw [hholds.crcOk_iff (cfg.device next) (by omega) (by omega)]
      rfl
  · have hnot := hrelay hnext
    rw [hreceived] at hnot
    split at hnot
    · exact absurd (congrArg Prod.fst hnot) (by simp)
    · exact absurd (congrArg Prod.fst hnot) (by simp)

/-- A frame whose path leads to its destination arrives there. -/
theorem exists_arrives (hsd : s ≠ d) {h : ℕ} (hfirst : FirstArrival cfg s d h) :
    ∃ frame, Arrives cfg s p₀ h d frame := by
  obtain ⟨k, rfl⟩ : ∃ k, h = k + 1 := ⟨h - 1, by have := hfirst.1; omega⟩
  have harrive := hfirst.2.2.1
  obtain ⟨u, p, next, hair, hp, hdel⟩ :=
    exists_onAir hs hd hlen hp₀ hsd hfirst (show k < k + 1 by omega)
  obtain rfl : next = d := Option.some.inj (hp.named.symm.trans harrive)
  obtain ⟨frame, hhere, -⟩ := hp.receive hlen hd (fun _ => 0)
  exact ⟨frame, u, p, _, hair, hdel, (hhere rfl).2⟩

/-- Behind its destination a frame is not transmitted again. -/
theorem le_of_onAir {h : ℕ} (hfirst : FirstArrival cfg s d h) {n : ℕ} {u : UInt8}
    {p : List UInt8} (hair : OnAir cfg s p₀ n u p) : n ≤ h := by
  obtain ⟨k, next, rfl, hp⟩ := onAir_eq hs hd hlen hp₀ hair
  by_contra hgt
  exact hp.notYet h hfirst.1 (by omega) hfirst.2.2.1

/-- There is one `n`-th transmission at most. -/
theorem onAir_unique {n : ℕ} {u u' : UInt8} {p p' : List UInt8}
    (h : OnAir cfg s p₀ n u p) (h' : OnAir cfg s p₀ n u' p') : u = u' ∧ p = p' := by
  obtain ⟨k, next, rfl, hp⟩ := onAir_eq hs hd hlen hp₀ h
  obtain ⟨k', next', hk, hp'⟩ := onAir_eq hs hd hlen hp₀ h'
  obtain rfl : k = k' := by omega
  obtain rfl : next = next' := Option.some.inj (hp.named.symm.trans hp'.named)
  exact ⟨Option.some.inj (hp.transmitter.symm.trans hp'.transmitter),
    hp.packet.trans hp'.packet.symm⟩

end Travel

/-- **Multi-hop delivery.** A frame built by `_send` for another node of the network is
received there if and only if the tables lead there within `INIT_TTL + 1` hops. It then
arrives with the transmission of that number, which is the last one, with the hop counter
counted down, all else as sent, and its checksum right. Otherwise no node receives it. In
every case it is transmitted at most `INIT_TTL + 1` times. -/
theorem multiHop (cfg : Config) (s d : UInt8) (flags : UInt8) {msg : Mem UInt8}
    {payload : List UInt8} (hs : s.toNat < cfg.netSize) (hd : d.toNat < cfg.netSize)
    (hsd : s ≠ d) (hlen : payload.length ≤ 93) (hmsg : cells msg payload.length = payload) :
    let p₀ := transmit (cfg.device s) d msg (UInt8.ofNat payload.length) flags
    ((∃ n frame, Arrives cfg s p₀ n d frame) ↔ ∃ h, FirstArrival cfg s d h) ∧
    (∀ h, FirstArrival cfg s d h →
      (∀ n x frame, Arrives cfg s p₀ n x frame →
        x = d ∧ n = h ∧ AsSent p₀ h frame ∧ crcOk (cfg.device d) frame = true) ∧
      (∀ n, (∃ u p, OnAir cfg s p₀ n u p) ↔ 1 ≤ n ∧ n ≤ h)) ∧
    ((¬ ∃ h, FirstArrival cfg s d h) → ∀ n x frame, ¬ Arrives cfg s p₀ n x frame) ∧
    (∀ n u p, OnAir cfg s p₀ n u p → 1 ≤ n ∧ n ≤ initTtl.toNat + 1) ∧
    (∀ n u p u' p', OnAir cfg s p₀ n u p → OnAir cfg s p₀ n u' p' → u = u' ∧ p = p') := by
  intro p₀
  have hp₀ : p₀ = relayed cfg s d flags payload 0 (UInt8.ofInt (cfg.tables s d)) :=
    transmit_eq (cfg.device s) d flags hlen hmsg
  have hfirst : ∀ {n x frame}, Arrives cfg s p₀ n x frame → FirstArrival cfg s d n :=
    fun h => (arrives_spec hs hd hlen hp₀ h).2.1
  refine ⟨⟨?_, ?_⟩, ?_, ?_, ?_, ?_⟩
  · rintro ⟨n, frame, h⟩
    exact ⟨n, hfirst h⟩
  · rintro ⟨h, hh⟩
    obtain ⟨frame, harr⟩ := exists_arrives hs hd hlen hp₀ hsd hh
    exact ⟨h, frame, harr⟩
  · intro h hh
    refine ⟨fun n x frame harr => ?_, fun n => ⟨?_, ?_⟩⟩
    · obtain ⟨rfl, hn, hsent, hcrc⟩ := arrives_spec hs hd hlen hp₀ harr
      have hle : ∀ {a b}, FirstArrival cfg s x a → FirstArrival cfg s x b → b ≤ a :=
        fun ha hb => by
          by_contra hlt
          exact hb.2.2.2 _ ha.1 (by omega) ha.2.2.1
      obtain rfl : n = h := Nat.le_antisymm (hle hh hn) (hle hn hh)
      exact ⟨rfl, rfl, hsent, hcrc⟩
    · rintro ⟨u, p, hair⟩
      obtain ⟨k, next, rfl, -⟩ := onAir_eq hs hd hlen hp₀ hair
      exact ⟨by omega, le_of_onAir hs hd hlen hp₀ hh hair⟩
    · rintro ⟨h₁, hle⟩
      obtain ⟨k, rfl⟩ : ∃ k, n = k + 1 := ⟨n - 1, by omega⟩
      obtain ⟨u, p, next, hair, -, -⟩ := exists_onAir hs hd hlen hp₀ hsd hh hle
      exact ⟨u, p, hair⟩
  · intro hnone n x frame harr
    exact hnone ⟨n, hfirst harr⟩
  · intro n u p hair
    obtain ⟨k, next, rfl, hp⟩ := onAir_eq hs hd hlen hp₀ hair
    have hlimit := hp.limit
    omega
  · intro n u p u' p' h h'
    exact onAir_unique hs hd hlen hp₀ h h'

/-- Three nodes in a line: `0` and `2` hear only `1`. -/
def line : Config where
  netSize := 3
  tables := fun a d => if a = 1 then d.toNat else 1
  aes := Equiv.refl Block
  crc := Crc8.crc8

/-- The payload of the example below. -/
def hello : List UInt8 := [104, 105]

/-- Two bytes reach the far end of the line in two hops. -/
theorem multiHop_line :
    FirstArrival line 0 2 2 ∧ ∃ n frame, Arrives line 0 (transmit (line.device 0) 2
      (load hello null) (UInt8.ofNat hello.length) typeMaskNeedAck) n 2 frame := by
  have hfirst : FirstArrival line 0 2 2 := by
    refine ⟨by decide, by decide, by decide, fun i h₁ h₂ => ?_⟩
    obtain rfl : i = 1 := by omega
    decide
  exact ⟨hfirst, (multiHop line 0 2 typeMaskNeedAck (by decide) (by decide) (by decide)
    (by decide) (cells_load hello null)).1.mpr ⟨2, hfirst⟩⟩

end MultiHop

end LCore
