import Mathlib.Order.Bounds.Basic
import BitPacking.Proofs.Spelling

namespace BitPacking

namespace Source

namespace Answer

def received (as : List Answer) : Bytes :=
  as.flatMap bytes

def pieces (as : List Answer) : Nat :=
  as.countP fun
    | data _ => true
    | _      => false

@[simp]
theorem received_nil : received [] = [] :=
  rfl

@[simp]
theorem received_append (as bs : List Answer) : received (as ++ bs) = received as ++ received bs :=
  List.flatMap_append

end Answer

open Answer

-- The reads with buffers of `n` bytes that lead from one source to another, and their answers.
inductive Draws (n : Nat) : Source → List Answer → Source → Prop
  | nil (s : Source) : Draws n s [] s
  | cons {s s₁ s' : Source} {a : Answer} {as : List Answer} (h : s.read n = (a, s₁))
      (hs : Draws n s₁ as s') : Draws n s (a :: as) s'

variable {n : Nat} {s s₁ s₂ s' : Source} {a : Answer} {as bs : List Answer}

namespace Draws

theorem append (h : Draws n s as s₁) (hs : Draws n s₁ bs s') : Draws n s (as ++ bs) s' := by
  induction h
  case nil          => exact hs
  case cons hr _ hi => exact .cons hr (hi hs)

theorem requests (h : Draws n s as s') :
    s'.requests = List.replicate as.length n ++ s.requests := by
  induction h
  case nil                        => rfl
  case cons s s₁ s' a as hr hs hi =>
    have hq : s₁.requests = n :: s.requests := by
      simp only [read] at hr
      split at hr
      case isTrue  => cases hr; rfl
      case isFalse => split at hr <;> cases hr <;> rfl
    rw [hi, hq, List.length_cons, List.replicate_succ', List.append_assoc, List.singleton_append]

-- Of two ways to read on, one is a part of the other.
theorem prefix_or_prefix (h : Draws n s as s₁) (h' : Draws n s bs s₂) : as <+: bs ∨ bs <+: as := by
  induction h generalizing bs
  case nil                        => exact .inl List.nil_prefix
  case cons s s₃ s₁ a as hr hs hi =>
    cases h'
    case nil           => exact .inr List.nil_prefix
    case cons hr' hs'  =>
      obtain ⟨rfl, rfl⟩ := Prod.mk.inj (hr.symm.trans hr')
      rw [List.prefix_cons_inj, List.prefix_cons_inj]
      exact hi hs'

end Draws

-- Reads each of which is made only while what was received since the first of them is short.
structure Sparing (n : Nat) (s : Source) (Short : Bytes → Prop) (as : List Answer) (s' : Source) :
    Prop where
  draws : Draws n s as s'
  short : ∀ front a rest, as = front ++ a :: rest → Short (received front)

namespace Sparing

variable {Short Short₁ : Bytes → Prop}

theorem nil (s : Source) (Short : Bytes → Prop) : Sparing n s Short [] s where
  draws := .nil s
  short := by simp

theorem cons (h : s.read n = (a, s₁)) (h₀ : Short [])
    (hs : Sparing n s₁ (fun bytes => Short (a.bytes ++ bytes)) as s') :
    Sparing n s Short (a :: as) s' where
  draws := .cons h hs.draws
  short := by
    intro front a' rest he
    rcases List.cons_eq_append_iff.1 he with ⟨rfl, -⟩ | ⟨front', rfl, ha⟩
    · exact h₀
    · exact hs.short front' a' rest ha

theorem append (h : Sparing n s Short as s₁)
    (hs : Sparing n s₁ (fun bytes => Short (received as ++ bytes)) bs s') :
    Sparing n s Short (as ++ bs) s' where
  draws := h.draws.append hs.draws
  short := by
    intro front a rest he
    rcases List.append_eq_append_iff.1 he with ⟨front', rfl, hb⟩ | ⟨rest', ha, hb⟩
    · rw [received_append]
      exact hs.short front' a rest hb
    · rcases rest' with _ | ⟨a', rest'⟩
      · rw [List.append_nil] at ha
        have h₀ := hs.short [] a rest hb.symm
        rwa [received_nil, List.append_nil, ha] at h₀
      · cases hb
        exact h.short front _ rest' ha

theorem imp (h : Sparing n s Short as s') (hs : ∀ bytes, Short bytes → Short₁ bytes) :
    Sparing n s Short₁ as s' :=
  ⟨h.draws, fun front a rest he => hs _ (h.short front a rest he)⟩

theorem eq_nil (h : Sparing n s Short as s') (hs : ∀ bytes, ¬Short bytes) : as = [] := by
  rcases as with _ | ⟨a, as⟩
  case nil  => rfl
  case cons => exact absurd (h.short [] a as rfl) (hs _)

-- No other reads get along with fewer pieces.
theorem isLeast (h : Sparing n s Short as s') (Enough : Bytes → Prop)
    (he : Enough (received as)) (hs : ∀ bytes, Short bytes → ¬Enough bytes) :
    IsLeast {k | ∃ bs t, Draws n s bs t ∧ Enough (received bs) ∧ pieces bs = k} (pieces as) := by
  refine ⟨⟨as, s', h.draws, he, rfl⟩, ?_⟩
  rintro _ ⟨bs, t, hd, hb, rfl⟩
  rcases h.draws.prefix_or_prefix hd with hp | ⟨_ | ⟨a, rest⟩, rfl⟩
  · exact hp.sublist.countP_le
  · rw [List.append_nil]
  · exact absurd hb (hs _ (h.short bs a rest rfl))

end Sparing

theorem exists_sparing_of_readOn (Short : Bytes → Prop) (h : s.readOn n = (a, s'))
    (hs : Short []) : ∃ as, Sparing n s Short as s' ∧ received as = a.bytes := by
  fun_induction readOn s n
  case case1 hr hi =>
    obtain ⟨as, has, hb⟩ := hi h
    exact ⟨_, .cons hr hs has, hb⟩
  case case2 hr    =>
    cases h
    exact ⟨_, .cons hr hs (.nil _ _), List.append_nil _⟩

end Source

namespace Bits.Reader

open Source.Answer

-- A reader that has read on and has asked its source while what that gave was short.
structure Asks (r : Reader) (Short : Bytes → Prop) (as : List Source.Answer) (r' : Reader) :
    Prop where
  sparing   : Source.Sparing r.blockSize r.source Short as r'.source
  blockSize : r'.blockSize = r.blockSize

def withOnly (r : Reader) (bytes : Bytes) : Reader :=
  { r with source := .ofBytes bytes }

theorem digits_withOnly (r : Reader) (bytes : Bytes) : (r.withOnly bytes).digits =
    Bits.digits r.unread r.current ++ Bytes.digits (r.block ++ bytes) := by
  rw [digits, Reader.bytes, withOnly, Source.supplied_ofBytes]

variable {r r₁ r' : Reader} {as bs : List Source.Answer} {n width : Nat}

theorem Asks.trans {Short : Bytes → Prop} (h : r.Asks Short as r₁)
    (hs : r₁.Asks (fun bytes => Short (received as ++ bytes)) bs r') :
    r.Asks Short (as ++ bs) r' where
  sparing   := h.sparing.append (h.blockSize ▸ hs.sparing)
  blockSize := hs.blockSize.trans h.blockSize

theorem Asks.imp {Short Short₁ : Bytes → Prop} (h : r.Asks Short as r')
    (hs : ∀ bytes, Short bytes → Short₁ bytes) : r.Asks Short₁ as r' :=
  ⟨h.sparing.imp hs, h.blockSize⟩

theorem Asks.of_empty (h : r.Asks (fun bytes => r.block ++ bytes = []) as r') (n : Nat) :
    r.Asks (fun bytes => (r.block ++ bytes).length < n + 1) as r' :=
  h.imp fun bytes hs => by rw [hs]; exact Nat.succ_pos n

-- Without a byte left, and only then, the source is asked for some.
theorem exists_asks_nextByte {x : Except IoError (Option UInt8)} (h : r.nextByte = (x, r')) :
    ∃ as, r.Asks (fun bytes => r.block ++ bytes = []) as r' ∧
      r'.unread = r.unread ∧ r'.current = r.current ∧
      (∀ b, x = .ok (some b) → r.block ++ received as = b :: r'.block) ∧
      ((∀ b, x ≠ .ok (some b)) → r.block ++ received as = [] ∧ r'.block = []) := by
  rw [nextByte] at h
  split at h
  case h_1 b block hb =>
    cases h
    refine ⟨[], ⟨.nil _ _, rfl⟩, rfl, rfl, ?_, fun hx => absurd rfl (hx b)⟩
    rintro _ ⟨⟩
    rw [hb, received_nil, List.append_nil]
  case h_2 hb         =>
    obtain ⟨as, has, hr⟩ := Source.exists_sparing_of_readOn (s := r.source) (n := r.blockSize)
      (fun bytes => r.block ++ bytes = []) rfl (by rw [hb]; rfl)
    simp only [hb, List.nil_append]
    split at h
    case h_1 b block s' hs  =>
      cases h
      rw [hs] at has hr
      refine ⟨as, ⟨by simpa [hb] using has, rfl⟩, rfl, rfl, ?_, fun hx => absurd rfl (hx b)⟩
      rintro _ ⟨⟩
      exact hr
    case h_2 e s' hs      =>
      cases h
      rw [hs] at has hr
      exact ⟨as, ⟨by simpa [hb] using has, rfl⟩, rfl, rfl, by simp, fun _ => ⟨hr, hb⟩⟩
    case h_3 a s' hd _ hs =>
      cases h
      rw [hs] at has hr
      refine ⟨as, ⟨by simpa [hb] using has, rfl⟩, rfl, rfl, by simp, fun _ => ⟨?_, hb⟩⟩
      rw [hr]
      rcases a with (_ | _) | _ | _ | _
      · rfl
      · exact absurd rfl (hd _ _)
      all_goals rfl

theorem exists_asks_readBytes {x : Bytes × Option IoError} (h : r.readBytes n = (x, r')) :
    ∃ as, r.Asks (fun bytes => (r.block ++ bytes).length < n) as r' ∧
      r'.unread = r.unread ∧ r'.current = r.current ∧
      x.1 = (r.block ++ received as).take n ∧ r'.block = (r.block ++ received as).drop n := by
  induction n generalizing r x
  case zero      =>
    cases h
    exact ⟨[], ⟨.nil _ _, rfl⟩, rfl, rfl, rfl, (List.append_nil _).symm⟩
  case succ n hi =>
    rcases hb : r.nextByte with ⟨y, r₁⟩
    obtain ⟨as, has, hu, hc, hsome, hnone⟩ := exists_asks_nextByte hb
    replace has := has.of_empty n
    rw [readBytes, hb] at h
    rcases y with e | _ | b
    case ok.some =>
      rcases hr : r₁.readBytes n with ⟨⟨bytes, failure⟩, r₂⟩
      simp only [hr] at h
      cases h
      obtain ⟨bs, hbs, hu', hc', hx, hd⟩ := hi hr
      have hbl : r.block ++ received as = b :: r₁.block := hsome b rfl
      refine ⟨as ++ bs, has.trans (hbs.imp fun bytes hs => ?_), hu'.trans hu, hc'.trans hc, ?_, ?_⟩
      · rw [← List.append_assoc, hbl]
        exact Nat.succ_lt_succ hs
      · rw [received_append, ← List.append_assoc, hbl]
        exact congrArg (b :: ·) hx
      · rw [received_append, ← List.append_assoc, hbl]
        exact hd
    all_goals
      cases h
      obtain ⟨hbl, hb'⟩ := hnone (by simp)
      exact ⟨as, has, hu, hc, by rw [hbl]; rfl, by rw [hbl, hb']; rfl⟩

-- What is asked for the bytes in front is enough for them. The rest of it is there for elements.
theorem exists_asks_front {x : Bytes × Option IoError} {source : Source}
    (h : (ofSource source).readBytes n = (x, r')) :
    ∃ as, Source.Sparing Bytes.blockSize source (fun bytes => bytes.length < n) as r'.source ∧
      r'.blockSize = Bytes.blockSize ∧ x.1 = (received as).take n ∧
      (n ≤ (received as).length →
        ∀ more, (r'.withOnly more).digits = Bytes.digits ((received as ++ more).drop n)) := by
  obtain ⟨as, has, hu, -, hx, hd⟩ := exists_asks_readBytes h
  refine ⟨as, has.sparing, has.blockSize, hx, fun hl more => ?_⟩
  have hz : (r'.withOnly more).unread = 0 := hu
  rw [digits_of_unread_eq_zero hz, List.drop_append_of_le_length hl]
  rw [Reader.bytes, withOnly, Source.supplied_ofBytes, hd]
  rfl

theorem digits_append_withOnly (r : Reader) (b : UInt8) (bytes : Bytes) :
    ((r.append b).withOnly bytes).digits =
      Bits.digits r.unread r.current ++ Bytes.digits (b :: (r.block ++ bytes)) := by
  rw [digits_withOnly, append, digits_append_current]

-- What is received is either enough, and then it is appended, or lost.
theorem exists_asks_fill {x : Except IoError Bool} (h : r.fill n = (x, r')) :
    ∃ as, r.Asks (fun bytes => (r.block ++ bytes).length < n) as r' ∧
      (x = .ok true → r'.unread = r.unread + 8 * n ∧
        ∀ bytes, (r'.withOnly bytes).digits = (r.withOnly (received as ++ bytes)).digits) ∧
      (x ≠ .ok true → (r.block ++ received as).length < n ∧ (r'.withOnly []).digits = []) := by
  induction n generalizing r
  case zero      =>
    cases h
    exact ⟨[], ⟨.nil _ _, rfl⟩, fun _ => ⟨rfl, fun _ => rfl⟩, fun hx => absurd rfl hx⟩
  case succ n hi =>
    rcases hb : r.nextByte with ⟨y, r₁⟩
    obtain ⟨as, has, hu, hc, hsome, hnone⟩ := exists_asks_nextByte hb
    replace has := has.of_empty n
    rw [fill, hb] at h
    rcases y with e | _ | b
    case ok.some =>
      obtain ⟨bs, hbs, hok, hlost⟩ := hi h
      replace hbs : r₁.Asks (fun bytes => (r₁.block ++ bytes).length < n) bs r' := ⟨hbs.1, hbs.2⟩
      have hbl : r.block ++ received as = b :: r₁.block := hsome b rfl
      refine ⟨as ++ bs, has.trans (hbs.imp fun bytes hs => ?_), fun hx => ?_, fun hx => ?_⟩
      · rw [← List.append_assoc, hbl]
        exact Nat.succ_lt_succ hs
      · obtain ⟨hu', hd⟩ := hok hx
        replace hu' : r'.unread = r₁.unread + 8 + 8 * n := hu'
        refine ⟨by omega, fun bytes => ?_⟩
        rw [hd, digits_append_withOnly, hu, hc, digits_withOnly, received_append, List.append_assoc,
          ← List.append_assoc r.block, hbl, List.cons_append]
      · obtain ⟨hl, hd⟩ := hlost hx
        refine ⟨?_, hd⟩
        rw [received_append, ← List.append_assoc, hbl]
        exact Nat.succ_lt_succ hl
    all_goals
      cases h
      obtain ⟨hbl, hb'⟩ := hnone (by simp)
      refine ⟨as, ⟨has.1, has.2⟩, by simp, fun _ => ⟨by rw [hbl]; exact Nat.succ_pos n, ?_⟩⟩
      rw [digits_withOnly, dropBits, hb']
      rfl

-- An item that has been read without more of the source than the item needs: `none` where the
-- source had too little.
structure Takes {α : Type} (r : Reader) (item? : List Bool → Option (α × List Bool)) (a? : Option α)
    (as : List Source.Answer) (r' : Reader) : Prop where
  asks  : r.Asks (fun bytes => item? (r.withOnly bytes).digits = none) as r'
  whole : ∀ a, a? = some a → ∀ bytes,
    item? (r.withOnly (received as ++ bytes)).digits = some (a, (r'.withOnly bytes).digits)

section Takes

variable {α β γ : Type} {a : α} {a? : Option α} {b? : Option β}
variable {item? : List Bool → Option (α × List Bool)}
variable {item₁ : List Bool → Option (α × List Bool)}
variable {item₂ : List Bool → Option (β × List Bool)}
variable {item : List Bool → Option (γ × List Bool)}

theorem Takes.nil (r : Reader) (a : α) : r.Takes (fun ds => some (a, ds)) (some a) [] r where
  asks  := ⟨.nil _ _, rfl⟩
  whole := by
    rintro _ ⟨⟩ bytes
    rfl

theorem Takes.of_none (h : r.Asks (fun bytes => item? (r.withOnly bytes).digits = none) as r') :
    r.Takes item? none as r' where
  asks  := h
  whole := by
    rintro _ ⟨⟩

theorem Takes.append {f : β → γ} (h₁ : r.Takes item₁ (some a) as r₁) (h₂ : r₁.Takes item₂ b? bs r')
    (hn : ∀ ds, item₁ ds = none → item ds = none)
    (hs : ∀ ds rest, item₁ ds = some (a, rest) → item ds = (item₂ rest).map (Prod.map f id)) :
    r.Takes item (b?.map f) (as ++ bs) r' where
  asks  := by
    refine (h₁.asks.imp fun bytes h => hn _ h).trans (h₂.asks.imp fun bytes h => ?_)
    rw [hs _ _ (h₁.whole a rfl bytes), h]
    rfl
  whole := by
    intro c hc bytes
    obtain ⟨b, rfl, rfl⟩ := Option.map_eq_some_iff.1 hc
    rw [received_append, List.append_assoc, hs _ _ (h₁.whole a rfl _), h₂.whole b rfl]
    rfl

theorem Takes.of_part (h : r.Takes item₁ a? as r') (hn : ∀ ds, item₁ ds = none → item ds = none) :
    r.Takes item none as r' :=
  .of_none (h.asks.imp fun _ hs => hn _ hs)

theorem Takes.map {c : γ} (h : r.Takes item₁ (some a) as r')
    (hn : ∀ ds, item₁ ds = none → item ds = none)
    (hs : ∀ ds rest, item₁ ds = some (a, rest) → item ds = some (c, rest)) :
    r.Takes item (some c) as r' where
  asks  := h.asks.imp fun _ hx => hn _ hx
  whole := by
    rintro _ ⟨⟩ bytes
    exact hs _ _ (h.whole a rfl bytes)

end Takes

-- An element is taken once all its digits are there.
theorem exists_takes_readBits (r : Reader) (width : Nat) :
    ∃ as, r.Takes (element? width) (r.readBits width).1.toOption.join as (r.readBits width).2 ∧
      ((r.readBits width).1.toOption.join = none →
        (r.withOnly (received as)).digits.length < width ∧
          ((r.readBits width).2.withOnly []).digits = []) := by
  have hshort (bytes : Bytes) (h : (r.block ++ bytes).length < (width - r.unread + 7) / 8) :
      (r.withOnly bytes).digits.length < width := by
    rw [digits_withOnly, List.length_append, Bits.length_digits, Bytes.length_digits]
    omega
  rcases hf : r.fill ((width - r.unread + 7) / 8) with ⟨x, r₁⟩
  obtain ⟨as, has, hok, hlost⟩ := exists_asks_fill hf
  replace has := has.imp fun bytes hs => element?_eq_none_iff.2 (hshort bytes hs)
  refine ⟨as, ?_⟩
  rw [readBits, hf]
  rcases x with e | _ | _
  case ok.true =>
    obtain ⟨hu, hd⟩ := hok rfl
    have hw : width ≤ r₁.unread := by omega
    refine ⟨⟨⟨has.1, has.2⟩, fun raw hr bytes => ?_⟩, fun hr => by cases hr⟩
    cases hr
    obtain ⟨hv, hrest⟩ := takeBits_digits (r := r₁.withOnly bytes) hw
    rw [← hd, element?, if_pos (by rw [length_digits]; exact hw.trans (Nat.le_add_right ..)), ← hv,
      ← hrest]
    rfl
  all_goals
    obtain ⟨hl, hd⟩ := hlost (by simp)
    exact ⟨.of_none has, fun _ => ⟨hshort _ hl, hd⟩⟩

inductive Call
  | bytes (n : Nat)
  | bits (width : Nat)

namespace Call

def after (r : Reader) : Call → Reader
  | bytes n => (r.readBytes n).2
  | bits w  => (r.readBits w).2

def need : Call → Nat
  | bytes n => 8 * n
  | bits w  => w

-- The number of bits for a call that the source has given and that no call has taken.
def spare (r : Reader) : Call → Nat
  | bytes _ => 8 * r.block.length
  | bits _  => r.unread + 8 * r.block.length

theorem exists_asks (call : Call) (r : Reader) :
    ∃ as, r.Asks (fun bytes => call.spare r + 8 * bytes.length < call.need) as (call.after r) ∧
      call.spare (call.after r) = call.spare r + 8 * (received as).length - call.need := by
  cases call
  case bytes n =>
    obtain ⟨as, has, -, -, -, hd⟩ := exists_asks_readBytes (r := r) (n := n) rfl
    refine ⟨as, has.imp fun bytes hs => ?_, ?_⟩
    · rw [List.length_append] at hs
      simp only [spare, need]
      omega
    · rw [spare, after, hd, List.length_drop, List.length_append, spare, need]
      omega
  case bits w  =>
    obtain ⟨as, has, hnone⟩ := exists_takes_readBits r w
    have hl (r : Reader) (bytes : Bytes) :
        (r.withOnly bytes).digits.length = r.unread + 8 * r.block.length + 8 * bytes.length := by
      rw [digits_withOnly, List.length_append, Bits.length_digits, Bytes.length_digits,
        List.length_append]
      ring
    refine ⟨as, has.asks.imp fun bytes hs => ?_, ?_⟩
    · rw [element?_eq_none_iff, hl] at hs
      exact hs
    · have hr := hl (r.readBits w).2 []
      simp only [spare, after, need]
      rw [List.length_nil] at hr
      rcases ha : (r.readBits w).1.toOption.join with _ | raw
      case none =>
        obtain ⟨hlt, hd⟩ := hnone ha
        rw [hl] at hlt
        rw [hd, List.length_nil] at hr
        omega
      case some =>
        have hw := has.whole raw ha []
        obtain ⟨hle, -, hd⟩ := element?_eq_some hw
        rw [List.append_nil, hl] at hle
        rw [hd, List.length_drop, List.append_nil, hl] at hr
        omega

end Call

def run (r : Reader) (calls : List Call) : Reader :=
  calls.foldl (fun r call => call.after r) r

theorem exists_draws_run (r : Reader) (calls : List Call) :
    ∃ as, Source.Draws r.blockSize r.source as (r.run calls).source ∧
      (r.run calls).blockSize = r.blockSize := by
  induction calls generalizing r
  case nil                => exact ⟨[], .nil _, rfl⟩
  case cons call calls hi =>
    obtain ⟨as, has, -⟩ := call.exists_asks r
    obtain ⟨bs, hbs, hz⟩ := hi (call.after r)
    exact ⟨as ++ bs, has.sparing.draws.append (has.blockSize ▸ hbs), hz.trans has.blockSize⟩

end Bits.Reader

end BitPacking
