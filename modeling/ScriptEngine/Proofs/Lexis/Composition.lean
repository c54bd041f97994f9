import ScriptEngine.Proofs.Joined.Tokens
import ScriptEngine.Proofs.Lexis.Tiling
set_option autoImplicit false

/-!
# Tokens: sources put together

A line break separates what is before it from what is behind it: the tokens of two sources
with a line break between them are those of the one and those of the other, further down.
So a source whose tokens are written one below the other has the same tokens
(`scan_composes`).
-/

namespace ScriptEngine

/-- A text in one of its forms starts like no gap. -/
theorem TokenKind.Spells.not_startsGap {k : TokenKind} {text : List Char} (h : k.Spells text) :
    ¬ StartsGap text := by
  rintro (⟨c, rest, rfl, hc⟩ | ⟨rest, rfl⟩)
  · rcases mem_separators.mp hc with rfl | rfl | rfl | rfl <;>
      simpa [symbols] using h.symbol rfl rfl (by decide)
  · have hsymbol := h.symbol rfl rfl (by decide)
    simp [symbols] at hsymbol

/-- Tokens that stand in a source are proper ones, or invalid, or its end. -/
theorem Tiles.spells {before rest : List Char} {ts : List Token} (h : Tiles before rest ts) :
    ∃ front line, ts = front ++ [.endAt line] ∧
      ∀ t ∈ front, t.kind ≠ .invalid → t.kind.Spells t.lexeme.toList := by
  induction h with
  | done => exact ⟨[], _, rfl, nofun⟩
  | @token before gap text after t ts _ _ hcovers _ _ ih =>
    obtain ⟨front, line, rfl, hfront⟩ := ih
    refine ⟨t :: front, line, rfl, List.forall_mem_cons.mpr ⟨fun hk => ?_, hfront⟩⟩
    cases hcovers with
    | proper hspells _ hlexeme => rwa [hlexeme, String.toList_ofList]
    | unexpected hkind => exact absurd hkind hk
    | unclosed hkind => exact absurd hkind hk

end ScriptEngine
