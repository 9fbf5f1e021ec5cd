import BitPacking.Proofs.Batch.Precedence
import BitPacking.Proofs.Stream.Session

namespace BitPacking

-- What an encoder makes its reports by, and how many of them it has counted.
structure Tally where
  config : Config
  count  : Nat

-- What is reported while some values are offered, and what the count comes to. The values that are
-- reported are in the order in which they were offered.
structure Counts (t : Tally) (offered logged : List UInt64) (events : List Event) (t' : Tally)
    (ok : Prop) : Prop where
  sublist  : logged.Sublist (t.config.above offered)
  reports  : events.filter Event.isAboveMaximum = logged.map t.config.report
  tally_eq : t' = ⟨t.config, t.count + logged.length⟩
  complete : ok → logged = t.config.above offered

namespace Counts

variable {t t₁ t' : Tally} {offered offered' logged logged' : List UInt64}
variable {events events' : List Event} {ok ok' : Prop}

theorem refl : Counts t [] [] [] t ok :=
  ⟨List.nil_sublist _, rfl, rfl, fun _ => rfl⟩

theorem nothing (hr : ¬ok) : Counts t offered [] [] t ok :=
  ⟨List.nil_sublist _, rfl, rfl, (absurd · hr)⟩

theorem of_sublist (h : Counts t offered logged events t' ok) (hs : offered.Sublist offered')
    (hr : ¬ok) : Counts t offered' logged events t' ok where
  sublist  := h.sublist.trans (hs.filter _)
  reports  := h.reports
  tally_eq := h.tally_eq
  complete := (absurd · hr)

theorem imp (h : Counts t offered logged events t' ok) (ho : ok' → ok) :
    Counts t offered logged events t' ok' :=
  ⟨h.sublist, h.reports, h.tally_eq, h.complete ∘ ho⟩

theorem trans (h : Counts t offered logged events t₁ ok)
    (h' : Counts t₁ offered' logged' events' t' ok') :
    Counts t (offered ++ offered') (logged ++ logged') (events ++ events') t' (ok ∧ ok') := by
  obtain ⟨hs, hr, rfl, hc⟩ := h
  obtain ⟨hs', hr', rfl, hc'⟩ := h'
  constructor
  case sublist  => exact Config.above_append .. ▸ hs.append hs'
  case reports  => rw [List.filter_append, hr, hr', List.map_append]
  case tally_eq => rw [List.length_append, Nat.add_assoc]
  case complete => exact fun ⟨ho, ho'⟩ => by rw [Config.above_append, ← hc ho, ← hc' ho']

end Counts

section Steps

variable {α σ σ' : Type} {view : σ → Tally} {view' : σ' → Tally} {s : σ} {s' : σ'}
variable {step : σ → α → Logged (Except Error Unit × σ)} {values : α → List UInt64}
variable {offered offered' : List UInt64} {value : UInt64} {x : Logged (Except Error Unit × σ)}

-- A step, or several up to the first that fails, by which values are offered.
def Accounts (view : σ → Tally) (s : σ) (offered : List UInt64)
    (x : Logged (Except Error Unit × σ)) : Prop :=
  ∃ logged, Counts (view s) offered logged x.events (view x.value.2) (x.value.1 = .ok ())

namespace Accounts

theorem failed (cause : Error) (s : σ) (offered : List UInt64) :
    Accounts view s offered (pure (.error cause, s)) :=
  ⟨[], .nothing nofun⟩

theorem refused {c : Config} {s' : σ} (h : c.TooLarge value) (cause : Error)
    (hs : (view s).config = c) (hv : view s' = ⟨c, (view s).count + 1⟩) :
    Accounts view s [value] ⟨(.error cause, s'), [c.report value]⟩ := by
  subst hs
  refine ⟨[value], ?_, rfl, hv, nofun⟩
  rw [Config.above_cons_of_lt (Config.lt_of_tooLarge h)]
  exact List.Sublist.refl _

theorem held {c : Config} {s' : σ} (h : c.Holds value) (hs : (view s).config = c)
    (hv : view s' = ⟨c, (view s).count + (c.warnings [value]).length⟩) :
    Accounts view s [value] ⟨(.ok (), s'), c.warnings [value]⟩ := by
  subst hs
  rw [Config.warnings_eq_map_report (List.forall_mem_singleton.2 h)] at hv ⊢
  refine ⟨_, List.Sublist.refl _, ?_, by rw [hv, List.length_map], fun _ => rfl⟩
  exact List.filter_eq_self.2 <| List.forall_mem_map.2 fun _ _ => rfl

theorem of_sublist (h : Accounts view s offered x) (hs : offered.Sublist offered')
    (hr : x.value.1 ≠ .ok ()) : Accounts view s offered' x :=
  h.imp fun _ h => h.of_sublist hs hr

theorem of_eq {y : Logged (Except Error Unit × σ')} (h : Accounts view s offered x)
    (hs : view' s' = view s) (hv : view' y.value.2 = view x.value.2)
    (he : y.events.filter Event.isAboveMaximum = x.events.filter Event.isAboveMaximum)
    (hr : y.value.1 = .ok () → x.value.1 = .ok ()) : Accounts view' s' offered y := by
  have ⟨logged, h⟩ := h
  refine ⟨logged, ?_⟩
  rw [hs, hv]
  exact ⟨h.sublist, he.trans h.reports, h.tally_eq, h.complete ∘ hr⟩

theorem each (h : ∀ s a, Accounts view s (values a) (step s a)) (s : σ) (as : List α) :
    Accounts view s (as.flatMap values) (Logged.each step s as) := by
  induction as generalizing s
  case nil          => exact ⟨[], .refl⟩
  case cons a as hi =>
    rw [List.flatMap_cons]
    match hx : step s a with
    | ⟨(.error cause, s₁), events⟩ =>
      have hf := hx ▸ h s a
      rw [Logged.each_cons_of_error hx]
      exact hf.of_sublist (List.sublist_append_left ..) nofun
    | ⟨(.ok (), s₁), events⟩       =>
      have ⟨front, hf⟩ := hx ▸ h s a
      have ⟨rest, hr⟩ := hi s₁
      rw [Logged.each_cons, hx]
      exact ⟨front ++ rest, (hf.trans hr).imp fun ho => ⟨rfl, ho⟩⟩

end Accounts

theorem Counts.run (h : ∀ s a, Accounts view s (values a) (step s a)) (s : σ) (as : List α) :
    ∃ logged, Counts (view s) (as.flatMap values) logged (Logged.run step s as).events
      (view (Logged.run step s as).value.2) (∀ r ∈ (Logged.run step s as).value.1, r = .ok ()) := by
  induction as generalizing s
  case nil          => exact ⟨[], .refl⟩
  case cons a as hi =>
    have ⟨front, hf⟩ := h s a
    have ⟨rest, hr⟩ := hi (step s a).value.2
    rw [Logged.run_cons, List.flatMap_cons]
    exact ⟨front ++ rest, (hf.trans hr).imp fun ho => List.forall_mem_cons.1 ho⟩

end Steps

namespace Batch.Encoder

def tally (e : Encoder) : Tally :=
  ⟨e.config, e.overflowWarnings⟩

theorem pack_accounts (e : Encoder) (value : UInt64) :
    Accounts tally e [value] (e.pack value) := by
  by_cases h : e.config.TooLarge value
  case pos =>
    rw [pack_of_tooLarge h]
    exact .refused h _ rfl rfl
  case neg =>
    have hv := Config.holds_iff.2 h
    have ⟨e', hp, hn⟩ := pack_of_holds hv
    have hc := (pack_ok (congrArg Logged.value hp)).2.config
    rw [hp]
    exact .held hv rfl (by rw [tally, hc, hn]; rfl)

theorem store_accounts (e : Encoder) (values : List UInt64) :
    Accounts tally e values (e.store values) := by
  have h := Accounts.each pack_accounts e values
  rw [List.flatMap_singleton'] at h
  rw [store]
  split
  case isFalse => exact .failed ..
  case isTrue  =>
    rcases hx : Logged.each pack e values with ⟨⟨cause | _, e'⟩, events⟩
    case error => exact (hx ▸ h).of_eq rfl rfl (by simp) id
    case ok    => exact (hx ▸ h).of_eq rfl rfl (by simp) fun _ => rfl

theorem each_reserve_accounts (e : Encoder) (values : List UInt64) :
    Logged.each reserve e values = pure (.ok (), e) ∨
      (Logged.each reserve e values).value.1 ≠ .ok () ∧
        Accounts tally e values (Logged.each reserve e values) := by
  induction values
  case nil          => exact .inl rfl
  case cons v vs hi =>
    by_cases ho : e.config.Overflows v
    case pos =>
      rw [Logged.each_cons_of_error (reserve_of_overflows ho)]
      refine .inr ⟨nofun, Accounts.of_sublist ?_ (List.sublist_append_left [v] vs) nofun⟩
      exact .refused (.inl ho) _ rfl rfl
    case neg =>
      by_cases hd : e.config.stored v = delimiter
      case pos =>
        rw [Logged.each_cons_of_error (reserve_of_delimiter ho hd)]
        exact .inr ⟨nofun, .failed ..⟩
      case neg =>
        rw [Logged.each_cons_of_ok (reserve_of_ne ho hd)]
        exact hi.imp id fun ⟨hr, h⟩ => ⟨hr, h.of_sublist (List.sublist_cons_self v vs) hr⟩

theorem append_accounts (e : Encoder) (values : List UInt64) :
    Accounts tally e values (e.append values) := by
  rw [append]
  split
  case isTrue  => exact .failed ..
  case isFalse =>
    split
    case isFalse => exact store_accounts e values
    case isTrue  =>
      cases each_reserve_accounts e values
      case inl h =>
        rw [h, pure_bind]
        exact store_accounts e values
      case inr h =>
        obtain ⟨hr, h⟩ := h
        rcases hx : Logged.each reserve e values with ⟨⟨cause | _, e'⟩, events⟩
        case error => exact (hx ▸ h).of_eq rfl rfl (by simp) id
        case ok    => exact absurd (by rw [hx]) hr

theorem guarded_accounts {step : Encoder → Logged (Except Error Unit × Encoder)} {e : Encoder}
    {values : List UInt64} (h : Accounts tally e values (step e)) :
    Accounts tally e values (e.guarded step) := by
  rw [guarded]
  split
  case isTrue  => exact .failed ..
  case isFalse =>
    rcases hx : step e with ⟨⟨cause | _, e'⟩, events⟩
    case error => exact (hx ▸ h).of_eq rfl rfl (by simp) (by simp)
    case ok    => exact (hx ▸ h).of_eq rfl rfl (by simp) fun _ => rfl

theorem perform_accounts (e : Encoder) (call : Call) :
    Accounts tally e call.values (call.perform e) := by
  cases call
  case sequence values => exact guarded_accounts (append_accounts e values)
  case bytes content   =>
    refine guarded_accounts ?_
    split
    case isTrue     => exact append_accounts e _
    case isFalse hd =>
      split
      case isTrue     => exact .failed ..
      case isFalse hl =>
        have hdvd := Nat.dvd_of_mod_eq_zero (not_not.1 hl)
        have h := Accounts.each append_accounts e
          (pieces e.config.sequenceLength.toNat (content.map (·.toUInt64)))
        rw [pieces_eq_rows, List.flatMap_id', flatten_rows_of_dvd (by rwa [List.length_map])] at h
        rwa [pieces_eq_rows]

end Batch.Encoder

namespace Stream

variable {ω : Type} [ByteSink ω]

def Session.Call.carryOut (x : Encoder × ω) : Call → Logged (Except Error Unit × Encoder × ω)
  | push value    => x.1.push x.2 value
  | extend values => x.1.extend x.2 values
  | finish        => pure (x.1.finish x.2)

namespace Encoder

def tally (e : Encoder) : Tally :=
  ⟨e.config, e.overflowWarnings⟩

theorem tally_ofConfig {c : Config} {e : Encoder} (h : ofConfig c = .ok e) :
    e.tally = ⟨c, 0⟩ := by
  rw [ofConfig] at h
  split at h
  case isTrue  => cases h; rfl
  case isFalse => cases h

theorem pack_accounts (e : Encoder) (value : UInt64) :
    Accounts tally e [value] (e.pack value) := by
  by_cases h : e.config.TooLarge value
  case pos =>
    rw [pack_of_tooLarge h]
    exact .refused h _ rfl rfl
  case neg =>
    by_cases hd : e.config.stored value = delimiter
    case pos =>
      rw [pack_of_delimiter (h ∘ .inl) hd]
      exact .failed ..
    case neg =>
      have hv := Config.holds_iff.2 h
      have ⟨e', hp, hn⟩ := pack_of_accepts ⟨hv, hd⟩
      have ⟨_, hc, _⟩ := pack_ok (congrArg Logged.value hp)
      rw [hp]
      exact .held hv rfl (by rw [tally, hc, hn]; rfl)

theorem tally_handOver (e : Encoder) (sink : ω) : (e.handOver sink).2.1.tally = e.tally := by
  simp only [handOver]
  split
  case isTrue  => rfl
  case isFalse => split <;> rfl

theorem tally_abort (e : Encoder) (sink : ω) : (e.abort sink).value.1.tally = e.tally := by
  simp only [abort]
  cases (ByteSink.flush sink).1 <;> rfl

theorem filter_events_abort (e : Encoder) (sink : ω) :
    (e.abort sink).events.filter Event.isAboveMaximum = [] := by
  simp only [abort]
  cases (ByteSink.flush sink).1 <;> rfl

theorem tally_finish (e : Encoder) (sink : ω) : (e.finish sink).2.1.tally = e.tally := by
  rw [finish]
  split
  case h_1 => rfl
  case h_2 => rfl
  case h_3 =>
    dsimp only
    split
    case h_1 => rfl
    case h_2 => split <;> rfl

theorem push_accounts (x : Encoder × ω) (value : UInt64) :
    Accounts (·.1.tally) x [value] (x.1.push x.2 value) := by
  rw [push]
  split
  case isTrue  => exact .failed ..
  case isFalse =>
    have h := pack_accounts x.1 value
    rcases hx : x.1.pack value with ⟨⟨cause | _, e⟩, events⟩
    case error =>
      refine (hx ▸ h).of_eq rfl (tally_abort e x.2) ?_ (by simp)
      simp [filter_events_abort]
    case ok    =>
      have ht := tally_handOver e x.2
      rcases hh : e.handOver x.2 with ⟨cause | _, e', sink⟩
      case error =>
        rw [hh] at ht
        refine (hx ▸ h).of_eq rfl ?_ ?_ ?_
        · simpa [hh] using (tally_abort e' sink).trans ht
        · simp [hh, filter_events_abort]
        · simp [hh]
      case ok    =>
        rw [hh] at ht
        refine (hx ▸ h).of_eq rfl ?_ ?_ fun _ => rfl
        · simpa [hh] using ht
        · simp [hh]

theorem carryOut_accounts (x : Encoder × ω) (call : Session.Call) :
    Accounts (·.1.tally) x call.values (call.carryOut x) := by
  cases call
  case push value    => exact push_accounts x value
  case extend values =>
    have h := Accounts.each push_accounts x values
    rwa [List.flatMap_singleton'] at h
  case finish        =>
    have h : Accounts (·.1.tally) x [] (pure (.ok (), x)) := ⟨[], .refl⟩
    exact h.of_eq rfl (tally_finish x.1 x.2) rfl fun _ => rfl

end Encoder
end Stream

theorem Event.isAboveMaximum_iff (event : Event) : event.isAboveMaximum = true ↔
    event.message = "trying to store value above the declared maximum" := by
  cases event <;> simp [isAboveMaximum, message]

-- What an encoder has counted and reported since it was made, when values were offered to it.
structure Accounted (c : Config) (offered : List UInt64) (events : List Event) (count : Nat)
    (ok : Prop) : Prop where
  count_eq : count =
    events.countP (·.message = "trying to store value above the declared maximum")
  -- The reports are of different values, in the order in which those were offered.
  once     : ∃ logged : List UInt64, logged.Sublist (c.above offered) ∧ count = logged.length ∧
    events.filter Event.isAboveMaximum = logged.map c.report
  complete : ok → count = (c.above offered).length ∧
    events.filter Event.isAboveMaximum = (c.above offered).map c.report

theorem Counts.accounted {c : Config} {offered logged : List UInt64} {events : List Event}
    {t : Tally} {ok : Prop} (h : Counts ⟨c, 0⟩ offered logged events t ok) :
    Accounted c offered events t.count ok := by
  have hn : t.count = logged.length := by rw [h.tally_eq, Nat.zero_add]
  constructor
  case once     => exact ⟨logged, h.sublist, hn, h.reports⟩
  case complete => exact fun ho => h.complete ho ▸ ⟨hn, h.reports⟩
  case count_eq =>
    have hl := congrArg List.length h.reports
    rw [List.length_map, ← hn, ← List.countP_eq_length_filter] at hl
    rw [← hl]
    exact List.countP_congr fun event _ => event.isAboveMaximum_iff.trans decide_eq_true_iff.symm

-- For any calls of an encoder, whatever they come to and whatever the sink of a stream does.
theorem overflowWarnings_accounted (c : Config) :
    (∀ calls,
      let x := Logged.run Batch.Encoder.Call.perform (.ofConfig c) calls
      Accounted c (calls.flatMap (·.values)) x.events x.value.2.overflowWarnings
        (∀ r ∈ x.value.1, r = .ok ())) ∧
      ∀ {ω : Type} [ByteSink ω] (e : Stream.Encoder) (sink : ω) (calls : List Stream.Session.Call),
        Stream.Encoder.ofConfig c = .ok e →
        let x := Logged.run Stream.Session.Call.carryOut (e, sink) calls
        Accounted c (calls.flatMap (·.values)) x.events x.value.2.1.overflowWarnings
          (∀ r ∈ x.value.1, r = .ok ()) := by
  constructor
  case left  =>
    intro calls
    have ⟨_, h⟩ := Counts.run Batch.Encoder.perform_accounts (.ofConfig c) calls
    exact h.accounted
  case right =>
    intro ω _ e sink calls he
    have ⟨_, h⟩ := Counts.run Stream.Encoder.carryOut_accounts (e, sink) calls
    rw [Stream.Encoder.tally_ofConfig he] at h
    exact h.accounted

-- One value that is stored nevertheless, one that has no stored form, and one that comes too late.
theorem overflowWarnings_accounted_aborted :
    let c : Config := ⟨5, 0, true, by decide⟩
    ∃ e, Stream.Encoder.ofConfig c = .ok e ∧
      let x := Logged.run Stream.Session.Call.carryOut (e, ({} : Sink.Limits).sink)
        [.push 6, .extend [3, largest], .push 7]
      x.value.2.1.overflowWarnings = 2 ∧
        Accounted c [6, 3, largest, 7] x.events x.value.2.1.overflowWarnings
          (∀ r ∈ x.value.1, r = .ok ()) := by
  intro c
  let e : Stream.Encoder := { config := c, writer := .ofBytes [3] }
  have he : Stream.Encoder.ofConfig c = .ok e := by decide +kernel
  refine ⟨e, he, by decide +kernel, ?_⟩
  exact (overflowWarnings_accounted c).2 e _ [.push 6, .extend [3, largest], .push 7] he

end BitPacking
