import BitPacking.Proofs.Stream.Decoder
import BitPacking.Proofs.Stream.Encoder

namespace BitPacking.Stream

variable {σ : Type} {behaviour : Sink.Behaviour σ} {state : σ}

theorem decode_of_extend {maxValue : UInt64} {containsZero : Bool} {values : List UInt64}
    {e e₁ : Encoder} {s₁ s₂ : Sink σ} {source : Source}
    (hn : (Encoder.new maxValue containsZero).value = .ok e) (hs : behaviour.Steady)
    (hx : (e.extend ({ behaviour, state } : Sink σ) values).value = (.ok (), e₁, s₁))
    (he : s₂ = (e₁.finish s₁).2.2 ∨ s₂ = (e₁.drop s₁).value.2)
    (hr : s₂.accepted <+: source.supplied) :
    ∃ d s, Decoder.ofSource source containsZero = (.ok d, s) ∧
      d.decode.1.values = values ∧ d.decode.1.count = .ok values.length := by
  have ⟨c, hz, hc⟩ := Encoder.new_ok hn
  have ⟨hrun, hb⟩ := Encoder.extend_ok (Encoder.ofConfig_running hc) hx
  have hw := Encoder.finish_steady hrun (hb ▸ hs)
  have hs₂ : s₂ = (e₁.finish s₁).2.2 := by
    cases he
    case inl he => exact he
    case inr he => rw [he, Encoder.value_drop]
  have ⟨d, s, hd, hdec⟩ := decode_whole hw hrun.accepts (hs₂ ▸ hr)
  exact ⟨d, s, hz ▸ hd, by rw [hdec]; rfl, by rw [hdec]; rfl⟩

-- A sink that takes a byte at a time, each after one more interruption than the last.
def reluctant : Sink.Behaviour Nat where
  write n _ := ((n, .ok 1), n + 1)
  flush n   := (.ok (), n)

theorem reluctant_steady : reluctant.Steady :=
  fun _ _ _ => ⟨1, Nat.one_pos, rfl⟩

-- The stream of 5, 0 and 6 in pieces, with another byte behind it.
def pieces : Source where
  answers := [.data [3], .interrupted, .interrupted, .data [0xC7], .data [0x80, 9]]
  onward  := .failing (.other "gone")

theorem decode_of_extend_pieces :
    ∃ e e₁ s₁, (Encoder.new 5 true).value = .ok e ∧ reluctant.Steady ∧
      (e.extend ({ behaviour := reluctant, state := 0 } : Sink Nat) [5, 0, 6]).value =
        (.ok (), e₁, s₁) ∧
      (e₁.finish s₁).2.2.accepted <+: pieces.supplied ∧
      ∃ d s, Decoder.ofSource pieces true = (.ok d, s) ∧
        d.decode.1.values = [5, 0, 6] ∧ d.decode.1.count = .ok 3 := by
  let e : Encoder := { config := ⟨5, 0, true, by decide⟩, writer := .ofBytes [3] }
  let x := (e.extend ({ behaviour := reluctant, state := 0 } : Sink Nat) [5, 0, 6]).value
  have hn : (Encoder.new 5 true).value = .ok e := by rfl
  have ho : x.1 = .ok () := by decide +kernel
  have hx : x = (.ok (), x.2) := Prod.ext ho rfl
  have hr : (x.2.1.finish x.2.2).2.2.accepted <+: pieces.supplied := by decide +kernel
  exact ⟨e, x.2.1, x.2.2, hn, reluctant_steady, hx, hr,
    decode_of_extend hn reluctant_steady hx (.inl rfl) hr⟩

end BitPacking.Stream
