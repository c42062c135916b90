import LCore.Integrity

/-!
# Delivery at Most Once

A token that was taken once is behind the counter of the receiver and is not taken again, so a
frame that is duplicated or sent again as it was puts its message into the queue once. A message
does not keep its token: a `SYNC` that arrives while its call waits has it sent again under
another one. The answer comes whenever a frame of the caller is rejected, and that may be a
copy, or a late frame of an earlier call, when the message of the call in progress has already
been taken.

A message is put into a queue at most once if no call follows such a `SYNC`.

## Main results

* `carries_step`: where the tokens come from under which a message can be taken.
* `once_of_untaken`: in a run in which a message is sent again under another token only when
  it has not been taken, every message is put into a queue at most once.
* `not_once_duplicated`: a packet that comes twice has its message put into the queue twice.
-/

open Memory

namespace LCore

namespace AtMostOnce

open Protocol (Body)

/-- The calls whose messages were put into a queue, as often as they were. -/
def putTags (log : List Event) : List Tag :=
  log.filterMap fun e => match e with
    | .put _ _ _ tag => some tag
    | _ => none

/-- A tag has been put when its message has. -/
theorem mem_putTags {log : List Event} {tag : Tag} :
    tag ∈ putTags log ↔ ∃ d s m, .put d s m tag ∈ log := by
  simp only [putTags, List.mem_filterMap]
  constructor
  · rintro ⟨e, he, heq⟩
    cases e with
    | put d s m tag' =>
        obtain rfl := Option.some.inj heq
        exact ⟨d, s, m, he⟩
    | _ => exact nomatch heq
  · rintro ⟨d, s, m, hmem⟩
    exact ⟨_, hmem, rfl⟩

/-! ### The condition -/

/-- The message of a call is in a queue, or about to be put there. -/
def Taken (net : LoraNet) (tag : Tag) : Prop :=
  tag ∈ putTags net.log ∨
    ∃ v m type, (net.nodes v).task = .queueing (.message m type) tag

/-- When a call is about to follow a `SYNC` that has another token than its message, and the
peer would take the message under it, the peer has not taken the message before and no frame
is under way with which it still could. -/
def ResendsUntaken (cfg : Config) (net : LoraNet) (l : Step) : Prop :=
  ∀ s c frame tag rest, l = .act s .poll → (net.nodes s).app = some c →
    c.waiting.allowResend = true → (net.nodes s).responseQueue = (frame, tag) :: rest →
    frame.buf framePosSendAddr = c.waiting.address →
    frame.buf framePosType &&& typeMaskSync ≠ 0 →
    let token := (Encryption.mergeFromBytes (shift frame.buf framePosMsg) tokenSize).toNat
    token ≠ Encryption.payloadToken cfg.aes (cells c.waiting.msg c.waiting.msgSize.toNat) →
    Encryption.counter ((net.nodes c.waiting.address).listener.globals.recvTokens s) < token →
    ¬ Taken net c.tag ∧ ∀ p, InFlight net p → p.tag = c.tag → ¬ IsLive cfg net p

/-! ### The protocol -/

/-- The message of a call is in a queue, or about to be put there. -/
def TakenP (net : Protocol.Net) (tag : Tag) : Prop :=
  tag ∈ putTags net.log ∨
    ∃ v send m, (net.nodes v).task = .queueing (.message send m) tag

/-- `d` has queued the message of a call of `s`, or is about to. -/
def TakenFrom (net : Protocol.Net) (s d : UInt8) (tag : Tag) : Prop :=
  (∃ m, .put d s m tag ∈ net.log) ∨ ∃ m, (net.nodes d).task = .queueing (.message s m) tag

/-- A message has been taken when it has been taken from someone. -/
theorem takenP_iff {net : Protocol.Net} {tag : Tag} :
    TakenP net tag ↔ ∃ s d, TakenFrom net s d tag := by
  rw [TakenP, mem_putTags]
  constructor
  · rintro (⟨d, s, m, hput⟩ | ⟨v, send, m, htask⟩)
    · exact ⟨s, d, .inl ⟨m, hput⟩⟩
    · exact ⟨send, v, .inr ⟨m, htask⟩⟩
  · rintro ⟨s, d, ⟨m, hput⟩ | ⟨m, htask⟩⟩
    · exact .inl ⟨d, s, m, hput⟩
    · exact .inr ⟨d, s, m, htask⟩

/-- A frame under way carries the message of a call from `s` to `d` under the token `t`. -/
def FrameCarries (net : Protocol.Net) (s d : UInt8) (tag : Tag) (t : ℕ) : Prop :=
  ∃ q m, Protocol.InFlight net q ∧ q.send = s ∧ q.dest = d ∧ q.tag = tag ∧ q.body = .data t m

/-- A call that may send its message again would do so under the token `t`. -/
def CallCarries (net : Protocol.Net) (s d : UInt8) (tag : Tag) (t : ℕ) : Prop :=
  ∃ c, (net.nodes s).app = some c ∧ c.dest = d ∧ c.tag = tag ∧ c.allowResend = true ∧ c.token = t

/-- The message of a call from `s` to `d` may reach `d` under the token `t`. -/
def Carries (net : Protocol.Net) (s d : UInt8) (tag : Tag) (t : ℕ) : Prop :=
  FrameCarries net s d tag t ∨ CallCarries net s d tag t

/-- The same condition on the protocol. -/
def Untaken (net : Protocol.Net) (l : Step) : Prop :=
  ∀ s c token tag rest, l = .act s .poll → (net.nodes s).app = some c → c.allowResend = true →
    (net.nodes s).responseQueue = (c.dest, .sync token, tag) :: rest → token ≠ c.token →
    (net.nodes c.dest).recvToken s < token →
    ¬ TakenP net c.tag ∧
      ∀ t, FrameCarries net s c.dest c.tag t → t ≤ (net.nodes c.dest).recvToken s

/-- The state between two steps: of the tokens under which the message of a call may reach its
peer, at most one is ahead of the counter there, and none once the message is taken. -/
structure Inv (net : Protocol.Net) : Prop where
  grounded : Integrity.NetGrounded net
  numbered : Integrity.Numbered net
  once : (putTags net.log).Nodup
  pending : ∀ v send m tag, (net.nodes v).task = .queueing (.message send m) tag →
    tag ∉ putTags net.log
  closed : ∀ s d tag t, TakenP net tag → Carries net s d tag t → t ≤ (net.nodes d).recvToken s
  unique : ∀ s d tag t t', Carries net s d tag t → Carries net s d tag t' →
    (net.nodes d).recvToken s < t → (net.nodes d).recvToken s < t' → t = t'

/-- Whatever carries the message of a call belongs to a call in the log. -/
theorem called_of_carries {net : Protocol.Net} (h : Integrity.NetGrounded net) {s d : UInt8}
    {tag : Tag} {t : ℕ} (hcarries : Carries net s d tag t) :
    (∃ m, .called tag d m ∈ net.log) ∧ tag.1 = s := by
  rcases hcarries with ⟨q, m, hq, rfl, rfl, rfl, hbody⟩ | ⟨c, happ, rfl, rfl, -⟩
  · have hgrounded : Integrity.Grounded net.log q.send q.dest q.body q.tag := by
      rcases hq with hair | ⟨v, hv⟩
      · exact h.air q hair
      · exact (h.nodes v).packets q hv
    rw [hbody] at hgrounded
    exact ⟨⟨m, hgrounded.1⟩, hgrounded.2⟩
  · obtain ⟨hcalled, htag⟩ := (h.nodes s).app c happ
    exact ⟨⟨c.m, hcalled⟩, htag⟩

/-- So does a message that is taken. -/
theorem called_of_takenFrom {net : Protocol.Net} (h : Integrity.NetGrounded net) {s d : UInt8}
    {tag : Tag} (htaken : TakenFrom net s d tag) :
    (∃ m, .called tag d m ∈ net.log) ∧ tag.1 = s := by
  rcases htaken with ⟨m, hput⟩ | ⟨m, htask⟩
  · obtain ⟨newer, older, hlog⟩ := List.mem_iff_append.mp hput
    obtain ⟨hcalled, htag⟩ := h.log _ _ ⟨newer, hlog.symm⟩
    exact ⟨⟨m, hlog ▸ List.mem_append_right _ (List.mem_cons_of_mem _ hcalled)⟩, htag⟩
  · obtain ⟨hcalled, htag⟩ := (h.nodes d).message s m tag htask
    exact ⟨⟨m, hcalled⟩, htag⟩

/-- A message that has been taken was sent by a call. -/
theorem called_of_taken {net : Protocol.Net} (h : Integrity.NetGrounded net) {tag : Tag}
    (htaken : TakenP net tag) : ∃ d m, .called tag d m ∈ net.log := by
  obtain ⟨s, d, hfrom⟩ := takenP_iff.mp htaken
  obtain ⟨hcalled, -⟩ := called_of_takenFrom h hfrom
  exact ⟨d, hcalled⟩

section Step

variable {routes : Protocol.Routes} {net net' : Protocol.Net} {l : Step} (hl : l.Faithful)
  (hstep : Network.step (Protocol.machine routes) net l = some net')

include hl hstep

/-- Where a frame with the message of a call comes from: it was under way before, or the message
is sent in this step. -/
theorem frame_step {s d : UInt8} {tag : Tag} {t : ℕ} (h : FrameCarries net' s d tag t) :
    FrameCarries net s d tag t ∨
    (∃ c, Protocol.Sends net l s c ∧ (net'.nodes s).app = some c ∧ c.dest = d ∧ c.tag = tag ∧
      c.token = t) := by
  obtain ⟨q, m, hq, hsend, hdest, htag, hbody⟩ := h
  cases Protocol.inFlight_step hl hstep hq with
  | old hp hsend' hdest' hbody' htag' =>
      exact .inl ⟨_, m, hp, hsend' ▸ hsend, hdest' ▸ hdest, htag' ▸ htag, hbody' ▸ hbody⟩
  | sent hsends happ heq =>
      subst heq hsend
      exact .inr ⟨_, hsends, happ, hdest, htag, (Body.data.inj hbody).1⟩
  | answered htask hanswer heq =>
      subst heq
      rcases hanswer with rfl | rfl
      · exact nomatch hbody
      · exact nomatch hbody
  | rejected hp hdest' hbody' hwindow heq =>
      subst heq
      exact nomatch hbody

/-- Where a token comes from under which a message may reach its peer: it was there before, or
the message is sent in this step. -/
theorem carries_step {s d : UInt8} {tag : Tag} {t : ℕ} (h : Carries net' s d tag t) :
    FrameCarries net s d tag t ∨
    (CallCarries net s d tag t ∧ CallCarries net' s d tag t) ∨
    (∃ c, Protocol.Sends net l s c ∧ (net'.nodes s).app = some c ∧ c.dest = d ∧ c.tag = tag ∧
      c.token = t) := by
  rcases h with hframe | ⟨c, happ', hdest, htag, hallow, htoken⟩
  · exact (frame_step hl hstep hframe).imp_right .inr
  · cases Protocol.app_step hl hstep happ' with
    | same happ =>
        exact .inr (.inl ⟨⟨c, happ, hdest, htag, hallow, htoken⟩,
          c, happ', hdest, htag, hallow, htoken⟩)
    | synced happ hallow₀ hc =>
        rw [hc] at hallow
        exact absurd hallow (by simp [hallow₀])
    | sends hsends => exact .inr (.inr ⟨c, hsends, happ', hdest, htag, htoken⟩)

/-- A message that is taken after a step was taken before, or was carried by a packet under a
token that the counter of its peer is now at. -/
theorem takenFrom_step {s d : UInt8} {tag : Tag} (h : TakenFrom net' s d tag) :
    TakenFrom net s d tag ∨ ∃ t, FrameCarries net s d tag t ∧ (net.nodes d).recvToken s < t ∧
      (net'.nodes d).recvToken s = t := by
  rcases h with ⟨m, hput⟩ | ⟨m, htask'⟩
  · rcases Protocol.put_step hl hstep hput with hold | ⟨htask, -⟩
    · exact .inl (.inl ⟨m, hold⟩)
    · exact .inl (.inr ⟨m, htask⟩)
  · rcases Protocol.queueing_step hl hstep htask' with
        htask | ⟨p, hp, hdest, htag, ⟨hentry, -⟩ | ⟨t, m', hbody, hentry, hlt, heq⟩⟩
    · exact .inl (.inr ⟨m, htask⟩)
    · exact nomatch hentry
    · obtain ⟨rfl, rfl⟩ := Protocol.Entry.message.inj hentry
      exact .inr ⟨t, ⟨p, m, .inl hp, rfl, hdest, htag, hbody⟩, hlt, heq⟩

/-- A message is taken in a step only by the node that hears its frame, which raises its
counter. -/
theorem taken_step {tag : Tag} (h : TakenP net' tag) :
    TakenP net tag ∨ ∃ s d t, FrameCarries net s d tag t ∧ (net.nodes d).recvToken s < t ∧
      (net'.nodes d).recvToken s = t := by
  obtain ⟨s, d, hfrom⟩ := takenP_iff.mp h
  rcases takenFrom_step hl hstep hfrom with hold | hnew
  · exact .inl (takenP_iff.mpr ⟨s, d, hold⟩)
  · exact .inr ⟨s, d, hnew⟩

end Step

/-- A message that is sent under a token ahead of the counter of its peer: a new one, one that
keeps its token, or one that is known not to have been taken. -/
theorem sends_cases {net : Protocol.Net} {l : Step} {s : UInt8} {c : Protocol.Call}
    (huntaken : Untaken net l) (h : Protocol.Sends net l s c)
    (hahead : (net.nodes c.dest).recvToken s < c.token) :
    c.tag = (s, (net.nodes s).calls) ∨ CallCarries net s c.dest c.tag c.token ∨
      (¬ TakenP net c.tag ∧ c.allowResend = false ∧
        ∀ t, FrameCarries net s c.dest c.tag t → t ≤ (net.nodes c.dest).recvToken s) := by
  cases h with
  | called hcall happ htoken hc =>
      rw [hc]
      exact .inl rfl
  | @resent c₀ body token tag rest hpoll happ hallow hqueue htoken hc =>
      subst hc
      by_cases hsame : token = c₀.token
      · exact .inr (.inl ⟨c₀, happ, rfl, rfl, hallow, hsame.symm⟩)
      · obtain rfl := htoken.resolve_left fun hkeep => hsame hkeep.2
        obtain ⟨hnot, hframes⟩ := huntaken s c₀ token tag rest hpoll happ hallow hqueue hsame hahead
        exact .inr (.inr ⟨hnot, rfl, hframes⟩)

/-- The tag of a call about to be made is not in the log. -/
theorem not_fresh {net : Protocol.Net} (h : Inv net) {s d : UInt8} {tag : Tag} {m : List UInt8}
    (hcalled : .called tag d m ∈ net.log) : tag ≠ (s, (net.nodes s).calls) := by
  rintro rfl
  exact lt_irrefl _ (h.numbered.counted _ _ _ _ hcalled)

section Inv

variable {routes : Protocol.Routes} {net net' : Protocol.Net} {l : Step} (h : Inv net)
  (hl : l.Faithful) (huntaken : Untaken net l)
  (hstep : Network.step (Protocol.machine routes) net l = some net')

include h hl hstep

/-- A message waiting to be put has not been put. -/
theorem pending_step (v send : UInt8) (m : List UInt8) (tag : Tag)
    (htask' : (net'.nodes v).task = .queueing (.message send m) tag) :
    tag ∉ putTags net'.log := by
  intro hput
  obtain ⟨d, s, m', hmem⟩ := mem_putTags.mp hput
  have htaken : TakenP net tag := by
    rcases Protocol.put_step hl hstep hmem with hold | ⟨htask, -⟩
    · exact .inl (mem_putTags.mpr ⟨d, s, m', hold⟩)
    · exact .inr ⟨d, s, m', htask⟩
  rcases Protocol.queueing_step hl hstep htask' with
      htask | ⟨p, hp, hdest, htag, ⟨hentry, -⟩ | ⟨t, m₀, hbody, hentry, hlt, -⟩⟩
  · rcases Protocol.put_step hl hstep hmem with hold | ⟨hother, hpackets⟩
    · exact h.pending v send m tag htask (mem_putTags.mpr ⟨d, s, m', hold⟩)
    · -- the call has one peer, and its listener has gone on
      have hcalled := ((h.grounded.nodes v).message send m tag htask).1
      have hcalled' := ((h.grounded.nodes d).message s m' tag hother).1
      obtain ⟨rfl, -⟩ := h.numbered.unique tag _ _ _ _ hcalled hcalled'
      rw [htask'] at hpackets
      exact hpackets rfl
  · exact nomatch hentry
  · have hle := h.closed p.send v tag t htaken (.inl ⟨p, m₀, .inl hp, rfl, hdest, htag, hbody⟩)
    exact absurd hlt (by omega)

/-- No message has been put twice after the step. -/
theorem once_step : (putTags net'.log).Nodup := by
  rcases Protocol.log_step hl hstep with ⟨hlog, -⟩ | ⟨v, i, r, rfl, hacts, -, hlog, -⟩
  · rw [hlog]
    exact h.once
  · rw [hlog]
    cases hacts with
    | put htask hroom => exact List.nodup_cons.mpr ⟨h.pending v _ _ _ htask, h.once⟩
    | _ => exact h.once

include huntaken

/-- At most one token of a message is still in the window after the step. -/
theorem unique_step (s d : UInt8) (tag : Tag) (t t' : ℕ) (ht : Carries net' s d tag t)
    (ht' : Carries net' s d tag t') (hlt : (net'.nodes d).recvToken s < t)
    (hlt' : (net'.nodes d).recvToken s < t') : t = t' := by
  have hle := Protocol.recvToken_step hl hstep d s
  -- a message sent in this step, against whatever else carries it
  have hsent : ∀ c t t', Protocol.Sends net l s c → (net'.nodes s).app = some c → c.dest = d →
      c.tag = tag → c.token = t → Carries net' s d tag t' → (net'.nodes d).recvToken s < t →
      (net'.nodes d).recvToken s < t' → t = t' := by
    rintro c t t' hsends happ rfl rfl rfl ht' hlt hlt'
    rcases carries_step hl hstep ht' with hframe | ⟨hcall, hcall'⟩ | ⟨c', -, happ', -, -, htoken⟩
    · rcases sends_cases huntaken hsends (by omega) with hfresh | hcarries | ⟨-, -, hframes⟩
      · obtain ⟨⟨m, hcalled⟩, -⟩ := called_of_carries h.grounded (.inl hframe)
        exact absurd hfresh (not_fresh h hcalled)
      · exact h.unique s c.dest c.tag _ _ (.inr hcarries) (.inl hframe) (by omega) (by omega)
      · exact absurd (hframes t' hframe) (by omega)
    · rcases sends_cases huntaken hsends (by omega) with hfresh | hcarries | ⟨-, hallow, -⟩
      · obtain ⟨⟨m, hcalled⟩, -⟩ := called_of_carries h.grounded (.inr hcall)
        exact absurd hfresh (not_fresh h hcalled)
      · exact h.unique s c.dest c.tag _ _ (.inr hcarries) (.inr hcall) (by omega) (by omega)
      · obtain ⟨c', happ', -, -, hallow', -⟩ := hcall'
        obtain rfl := Option.some.inj (happ.symm.trans happ')
        exact absurd hallow' (by simp [hallow])
    · obtain rfl := Option.some.inj (happ.symm.trans happ')
      exact htoken
  rcases carries_step hl hstep ht with
      hframe | ⟨hcall, -⟩ | ⟨c, hsends, happ, hdest, htag, htoken⟩
  · rcases carries_step hl hstep ht' with
        hframe' | ⟨hcall', -⟩ | ⟨c, hsends, happ, hdest, htag, htoken⟩
    · exact h.unique s d tag t t' (.inl hframe) (.inl hframe') (by omega) (by omega)
    · exact h.unique s d tag t t' (.inl hframe) (.inr hcall') (by omega) (by omega)
    · exact (hsent c t' t hsends happ hdest htag htoken ht hlt' hlt).symm
  · rcases carries_step hl hstep ht' with
        hframe' | ⟨hcall', -⟩ | ⟨c, hsends, happ, hdest, htag, htoken⟩
    · exact h.unique s d tag t t' (.inr hcall) (.inl hframe') (by omega) (by omega)
    · exact h.unique s d tag t t' (.inr hcall) (.inr hcall') (by omega) (by omega)
    · exact (hsent c t' t hsends happ hdest htag htoken ht hlt' hlt).symm
  · exact hsent c t t' hsends happ hdest htag htoken ht' hlt hlt'

/-- The tokens of a message that has been taken are behind the window after the step. -/
theorem closed_step (s d : UInt8) (tag : Tag) (t : ℕ) (htaken : TakenP net' tag)
    (hcarries : Carries net' s d tag t) : t ≤ (net'.nodes d).recvToken s := by
  have hle := Protocol.recvToken_step hl hstep d s
  by_contra hahead
  -- what carries the message was there before, or the message is known not to have been taken
  have hbefore : Carries net s d tag t ∨ (¬ TakenP net tag ∧
      ∀ t, FrameCarries net s d tag t → t ≤ (net.nodes d).recvToken s) ∨
      tag = (s, (net.nodes s).calls) := by
    rcases carries_step hl hstep hcarries with hframe | ⟨hcall, -⟩ | ⟨c, hsends, -, rfl, rfl, rfl⟩
    · exact .inl (.inl hframe)
    · exact .inl (.inr hcall)
    · rcases sends_cases huntaken hsends (by omega) with hfresh | hcall | ⟨hnot, -, hframes⟩
      · exact .inr (.inr hfresh)
      · exact .inl (.inr hcall)
      · exact .inr (.inl ⟨hnot, hframes⟩)
  rcases taken_step hl hstep htaken with hold | ⟨s₀, d₀, t₀, hframe, hlt, heq⟩
  · rcases hbefore with hcarried | ⟨hnot, -⟩ | hfresh
    · exact hahead ((h.closed s d tag t hold hcarried).trans hle)
    · exact hnot hold
    · obtain ⟨d', m, hcalled⟩ := called_of_taken h.grounded hold
      exact not_fresh h hcalled hfresh
  · obtain ⟨⟨m, hcalled⟩, hs⟩ := called_of_carries h.grounded (.inl hframe)
    obtain ⟨⟨m', hcalled'⟩, hs'⟩ := called_of_carries
      (Integrity.grounded_step net l net' h.grounded hl hstep) hcarries
    obtain ⟨rfl, -⟩ := (Integrity.numbered_step h.numbered hl hstep).unique tag _ _ _ _
      ((Protocol.log_suffix hl hstep).subset hcalled) hcalled'
    obtain rfl := hs.symm.trans hs'
    rcases hbefore with hcarried | ⟨-, hframes⟩ | hfresh
    · have ht := h.unique _ _ tag _ _ hcarried (.inl hframe) (by omega) hlt
      omega
    · exact absurd (hframes t₀ hframe) (by omega)
    · exact not_fresh h hcalled hfresh

/-- Every step keeps the invariant. -/
theorem inv_step : Inv net' where
  grounded := Integrity.grounded_step net l net' h.grounded hl hstep
  numbered := Integrity.numbered_step h.numbered hl hstep
  once := once_step h hl hstep
  pending := pending_step h hl hstep
  closed := closed_step h hl huntaken hstep
  unique := unique_step h hl huntaken hstep

end Inv

/-- It holds of the network when it has booted. -/
theorem inv_booted (recvToken : UInt8 → UInt8 → ℕ) : Inv (Protocol.booted recvToken) := by
  have hempty : ∀ s d tag t, ¬ Carries (Protocol.booted recvToken) s d tag t := by
    rintro s d tag t (⟨q, m, hq | ⟨v, hq⟩, -⟩ | ⟨c, happ, -⟩)
    · exact nomatch hq
    · exact nomatch hq
    · exact nomatch happ
  exact
    { grounded := Integrity.grounded_booted recvToken
      numbered := Integrity.numbered_booted recvToken
      once := List.nodup_nil
      pending := nofun
      closed := fun s d tag t _ h => absurd h (hempty s d tag t)
      unique := fun s d tag t _ h => absurd h (hempty s d tag t) }

/-! ### The code -/

/-- Only a `SYNC` has the bit of one. -/
theorem exists_sync {body : Body} (h : ∀ t m, body ≠ .data t m)
    (hsync : body.flags &&& typeMaskSync ≠ 0) : ∃ t, body = .sync t := by
  cases body with
  | sync t => exact ⟨t, rfl⟩
  | data t m => exact absurd rfl (h t m)
  | ack => exact absurd hsync (by decide)
  | error => exact absurd hsync (by decide)
  | resend => exact absurd hsync (by decide)

/-- The condition on the code is the one on the protocol. -/
theorem untaken_of_resendsUntaken {cfg : Config} {net : LoraNet} {net' : Protocol.Net}
    (hrel : Refinement.NetRel cfg net net') {l : Step} (h : ResendsUntaken cfg net l) :
    Untaken net' l := by
  intro s c' token tag rest' hpoll happ' hallow hqueue' hne hlt
  obtain ⟨c, happ, hcall⟩ := (hrel.nodes s).exists_call happ'
  obtain ⟨frame, tag₀, rest, hqueue, hframe⟩ := (hrel.nodes s).exists_response hqueue'
  have hsync : frame.buf framePosType &&& typeMaskSync ≠ 0 := by
    rw [hframe.type]
    exact syncResend_and_sync
  have hmerge := hframe.mergeFromBytes_sync
  have hown := hcall.payloadToken
  obtain ⟨hnot, hframes⟩ := h s c frame tag₀ rest hpoll happ
    (hcall.allowResend.trans hallow) hqueue (hframe.send.trans hcall.dest.symm) hsync
    (by rw [hmerge, hown]; exact hne)
    (by rw [hmerge, hcall.dest, (hrel.nodes c'.dest).recvToken]; exact hlt)
  rw [hcall.tag] at hnot hframes
  refine ⟨?_, ?_⟩
  · rintro (hput | ⟨v, send, m, htask'⟩)
    · exact hnot (.inl (hrel.log ▸ hput))
    · obtain ⟨entry, htask, -⟩ := (hrel.nodes v).task.message htask'
      exact hnot (.inr ⟨v, entry, _, htask⟩)
  · rintro t ⟨q, m, hq, rfl, hdest, htag, hbody⟩
    by_contra hahead
    obtain ⟨p, hp, hpq⟩ := Refinement.inFlight_rel hrel hq
    refine hframes p hp (hpq.tag.trans htag)
      ((Refinement.isLive_iff hrel hpq).mpr ⟨t, m, hbody, ?_⟩)
    rw [hdest]
    omega

/-- When the protocol says so of whatever carries the tag of a call, wherever it goes, so does the
code. -/
theorem resendsUntaken_of_rel {cfg : Config} {net : LoraNet} {net' : Protocol.Net}
    (hrel : Refinement.NetRel cfg net net') {l : Step}
    (h : ∀ s c token tag rest, l = .act s .poll → (net'.nodes s).app = some c →
      (net'.nodes s).responseQueue = (c.dest, .sync token, tag) :: rest →
      ¬ TakenP net' c.tag ∧ ∀ q t m, Protocol.InFlight net' q → q.tag = c.tag →
        q.body = .data t m → t ≤ (net'.nodes q.dest).recvToken q.send) :
    ResendsUntaken cfg net l := by
  intro s c frame tag rest hpoll happ hallow hqueue hsend hsync token hne hahead
  obtain ⟨c', happ', hcall⟩ := (hrel.nodes s).exists_protocol_call happ
  obtain ⟨send, body, rest', hqueue', hframe⟩ := (hrel.nodes s).exists_protocol_response hqueue
  obtain ⟨t, rfl⟩ : ∃ t, body = .sync t := by
    rw [hframe.type] at hsync
    exact exists_sync hframe.answer hsync
  obtain rfl : send = c'.dest := hframe.send.symm.trans (hsend.trans hcall.dest)
  obtain ⟨hnot, hframes⟩ := h s c' t tag rest' hpoll happ' hqueue'
  rw [hcall.tag]
  refine ⟨?_, fun p hp htag hlive => ?_⟩
  · rintro (hput | ⟨v, m, type, htask⟩)
    · exact hnot (.inl (hrel.log ▸ hput))
    · obtain ⟨send, m', htask', -⟩ := (hrel.nodes v).task.exists_message htask
      exact hnot (.inr ⟨v, send, m', htask'⟩)
  · obtain ⟨q, hq, hpq⟩ := Refinement.exists_protocol_inFlight hrel hp
    obtain ⟨t', m, hbody, hlt⟩ := (Refinement.isLive_iff hrel hpq).mp hlive
    exact absurd (hframes q t' m hq (hpq.tag.symm.trans htag) hbody) (not_le.mpr hlt)

/-- **Delivery at most once.** In a run in which a message is sent again under another token
only when it has not been taken, every message is put into a queue at most once. -/
theorem once_of_untaken (cfg : Config) (rnd : UInt8 → UInt8 → Fin tokenMax.toNat)
    (encBuf : UInt8 → Mem UInt8) (ls : List Step) (hclean : ∀ l ∈ ls, l.Clean)
    (huntaken : Lts.Along (Network.step (machine cfg)) (ResendsUntaken cfg) (booted rnd encBuf) ls)
    (net : LoraNet)
    (hrun : Lts.run (Network.step (machine cfg)) (booted rnd encBuf) ls = some net) :
    (putTags net.log).Nodup := by
  obtain ⟨net', hrun', hrel⟩ := Refinement.exists_protocol_run cfg hclean hrun
  have huntaken' : Lts.Along (Network.step (Protocol.machine (Refinement.routes cfg)))
      (fun net l => l.Faithful ∧ Untaken net l) (Protocol.booted fun v a => rnd v a) ls :=
    Lts.along_sim (Refinement.step_refines cfg)
      (fun net net' l hrel hl h => ⟨hl.faithful, untaken_of_resendsUntaken hrel h⟩)
      (Refinement.booted_rel cfg rnd encBuf) hclean huntaken
  rw [hrel.log]
  exact (Lts.run_inv (fun _ _ _ hinv hl hstep => inv_step hinv hl.1 hl.2 hstep) (inv_booted _)
    huntaken' hrun').once

/-! ### Two runs -/

/-- A frame comes twice and is rejected, and its call hears which token to use. -/
def rejected : List Step :=
  [.act 0 (.call 1 [7] null), .duplicate 0, .hear 1 0 .zero, .act 1 .transmit, .hear 0 1 .zero,
    .act 0 .put]

/-- The call sends its message again under that token, and it is taken. -/
def resent : List Step :=
  [.act 0 .poll, .hear 1 1 .zero, .act 1 .put, .act 1 .transmit, .hear 0 1 .zero, .act 0 .put]

/-- The call returns, and the copy of the first frame is heard. -/
def returned : List Step := [.act 0 .poll, .hear 1 0 .zero]

/-- No packet of the run is altered, and its messages fit. -/
theorem resent_clean : ∀ l ∈ rejected ++ resent ++ returned, l.Clean := by
  simp [rejected, resent, returned, Step.Clean, Network.Label.Admits, Action.Fits]

/-- In the poll that follows the `SYNC`, the message has not been taken, and the copy that is on the
air is behind the counter; the other poll takes the `ACK`. -/
theorem resendsUntaken_resent (aes : Aes) (crc : List UInt8 → UInt8) :
    Lts.Along (Network.step (machine (Config.direct 2 aes crc)))
      (ResendsUntaken (Config.direct 2 aes crc))
      (booted (fun _ _ => ⟨5, by decide⟩) fun _ => null) (rejected ++ resent ++ returned) := by
  have hother : ∀ ls : List Step, (∀ l ∈ ls, ∀ s, l ≠ .act s .poll) → ∀ net,
      Lts.Along (Network.step (machine (Config.direct 2 aes crc)))
        (ResendsUntaken (Config.direct 2 aes crc)) net ls := fun ls hls net =>
    Lts.along_mono (fun _ _ h s _ _ _ _ hl => absurd hl (h s)) (Lts.along_of_forall_mem hls)
  -- the state in which the call polls the `SYNC`
  obtain ⟨net₁, net₁', hrun₁, hrun₁', hrel₁, hair, ⟨htask, htask'⟩, hlog, happ, hrecv⟩ :=
    Refinement.exists_direct_state 2 aes crc (fun _ _ => ⟨5, by decide⟩) rejected
      (fun l hl => resent_clean l (List.mem_append_left _ (List.mem_append_left _ hl)))
      (fun net => net.air = [⟨1, 1, 0, initTtl, .data 1 [7], 0, (0, 0)⟩] ∧
        ((net.nodes 0).task = .polling ∧ (net.nodes 1).task = .polling) ∧ putTags net.log = [] ∧
        (net.nodes 0).app = some ⟨1, 1, [7], true, (0, 0)⟩ ∧ (net.nodes 1).recvToken 0 = 5)
      (by decide)
  -- the state in which it polls the `ACK`
  obtain ⟨net₂, net₂', hrun₂, -, hrel₂, hqueue₂⟩ :=
    Refinement.exists_direct_state 2 aes crc (fun _ _ => ⟨5, by decide⟩) (rejected ++ resent)
      (fun l hl => resent_clean l (List.mem_append_left _ hl))
      (fun net => (net.nodes 0).responseQueue = [(1, .ack, (0, 0))]) (by decide)
  refine Lts.along_append (Lts.along_append (hother _ (by simp [rejected]) _) hrun₁
    ⟨resendsUntaken_of_rel hrel₁ ?_, fun net _ => hother _ (by simp) net⟩) hrun₂
    ⟨resendsUntaken_of_rel hrel₂ ?_, fun net _ => hother _ (by simp) net⟩
  · intro s c token tag rest hl happ' _
    obtain rfl : 0 = s := by simpa using hl
    obtain rfl := Option.some.inj (happ.symm.trans happ')
    have hamong : ∀ l ∈ rejected, ∀ v ∈ l.actor, v ∈ [0, 1] := by
      simp [rejected, Network.Label.actor]
    have hpolling := Refinement.polling_of_run hamong hrun₁' (by simp [htask, htask'])
    refine ⟨?_, fun q t m hq _ hbody => ?_⟩
    · rintro (hput | ⟨v, send, m, htask₁⟩)
      · rw [hlog] at hput
        exact List.not_mem_nil hput
      · exact absurd ((hpolling v).symm.trans htask₁) (by simp)
    · have hmem := Refinement.mem_air_of_polling hpolling hq
      rw [hair] at hmem
      obtain rfl := List.mem_singleton.mp hmem
      obtain ⟨rfl, -⟩ := Body.data.inj hbody
      rw [hrecv]
      decide
  · intro s c token tag rest hl _ hsync
    obtain rfl : 0 = s := by simpa using hl
    exact absurd (hqueue₂.symm.trans hsync) (by simp)

/-- The message is sent under two tokens, and put into the queue once. -/
theorem once_resent :
    ∃ net, Lts.run (Network.step (machine (Config.direct 2 (Equiv.refl Block) Crc8.crc8)))
        (booted (fun _ _ => ⟨5, by decide⟩) fun _ => null) (rejected ++ resent ++ returned) =
        some net ∧
      net.log.count (.transmitted 0 (0, 0) typeMaskNeedAck) = 2 ∧
      putTags net.log = [(0, 0)] ∧ (putTags net.log).Nodup := by
  obtain ⟨-, net, hrun, hlog⟩ := Refinement.exists_direct_run (Equiv.refl Block) Crc8.crc8
    (fun _ _ => ⟨5, by decide⟩)
    [.returned (0, 0) true (some (0, 0)), .transmitted 1 (0, 0) typeMaskAck,
      .put 1 0 [7] (0, 0), .transmitted 0 (0, 0) typeMaskNeedAck,
      .transmitted 1 (0, 0) (typeMaskSync ||| typeMaskResend),
      .transmitted 0 (0, 0) typeMaskNeedAck, .called (0, 0) 1 [7]]
    resent_clean (by decide) (by decide)
  exact ⟨net, hrun, by rw [hlog]; decide, by rw [hlog]; decide,
    once_of_untaken _ _ _ _ resent_clean (resendsUntaken_resent _ _) net hrun⟩

/-- A packet comes twice: it is taken, and the copy is rejected. The answer to the copy reaches the
caller before the `ACK` does, and the caller sends its message again under the token that the peer
expects next. -/
def duplicated : List Step :=
  [.act 0 (.call 1 [7] null), .duplicate 0, .hear 1 0 .zero, .act 1 .put, .act 1 .transmit,
    .hear 1 0 .zero, .act 1 .transmit, .hear 0 1 .zero, .act 0 .put, .act 0 .poll, .hear 1 1 .zero,
    .act 1 .put]

/-- The message is put into the queue twice, under every AES key and checksum. -/
theorem not_once_duplicated :
    (∀ l ∈ duplicated, l.Clean) ∧ ¬ ∃ aes crc, ∀ net,
      Lts.run (Network.step (machine (Config.direct 2 aes crc)))
        (booted (fun _ _ => ⟨0, by decide⟩) fun _ => null) duplicated = some net →
      (putTags net.log).Nodup := by
  have hclean : ∀ l ∈ duplicated, l.Clean := by
    simp [duplicated, Step.Clean, Network.Label.Admits, Action.Fits]
  refine ⟨hclean, ?_⟩
  rintro ⟨aes, crc, honce⟩
  obtain ⟨-, net, hrun, hlog⟩ := Refinement.exists_direct_run aes crc (fun _ _ => ⟨0, by decide⟩)
    [.put 1 0 [7] (0, 0), .transmitted 0 (0, 0) typeMaskNeedAck,
      .transmitted 1 (0, 0) (typeMaskSync ||| typeMaskResend), .transmitted 1 (0, 0) typeMaskAck,
      .put 1 0 [7] (0, 0), .transmitted 0 (0, 0) typeMaskNeedAck, .called (0, 0) 1 [7]]
    hclean (by decide) (by decide)
  have hnodup := honce net hrun
  rw [hlog] at hnodup
  exact absurd hnodup (by decide)

end AtMostOnce

end LCore
