import OpenApiModels.Proofs.Json.Renumbering
import OpenApiModels.Proofs.Spec.Restamping

/-!
# Specs that are written again

The text that is written for a spec is read again, and writing what was read changes it just if
some number of the spec is not read back from its text (`text_again`). Some doubles are not: of two
neighbours each is read from the text of the other (`text_drifts`).
-/

namespace OpenApiModels.Spec.Document

open Number

theorem read?_text_renumber {path text : String} {doc : Document}
    (parsed : parse path text = .ok doc) :
    Json.read? doc.text = some (doc.toJson.renumber Json.reread) :=
  Json.read?_pretty_renumber (parse_eq_ok parsed) fun c hc => by
    rw [List.mem_singleton.1 hc]
    rfl

theorem toJson_eq_of_text_eq {doc doc' : Document} (h : doc.text = doc'.text) :
    doc.toJson = doc'.toJson := by
  have texts := List.append_cancel_right (String.ofList_injective h)
  exact Json.pretty_injective (Json.numbersTold _ _) (congrArg String.ofList texts)

/-- A spec file that was written once is read as the spec with each number as its text is read, so
the file stays when it is written again just if they all are read back. Integers always are, and
doubles with short texts. -/
theorem text_again {path text : String} {doc : Document} (parsed : parse path text = .ok doc) :
    ∃ again, parse path doc.text = .ok again ∧
      again.toJson = doc.toJson.renumber Json.reread ∧
      (again.text = doc.text ↔ ∀ n ∈ doc.toJson.numbers, Json.reread n = n) ∧
      ∀ n ∈ doc.toJson.numbers, n.IsShort → Json.reread n = n := by
  obtain ⟨again, isAgain⟩ : ∃ again : Document,
      again.toJson = doc.toJson.renumber Json.reread :=
    ⟨⟨_⟩, (Json.renumber_object doc.members).symm⟩
  have read := read?_text_renumber parsed
  refine ⟨again, parse_of_read? (isAgain ▸ read), isAgain, ?_, fun n hn short => ?_⟩
  · rw [← Json.renumber_eq_self_iff, ← isAgain]
    refine ⟨toJson_eq_of_text_eq, fun same => ?_⟩
    rw [Document.text, same, Document.text]
  · have fits := Json.fits_of_readValue (Json.yields_of_read? (parse_eq_ok parsed)) n hn
    exact Json.reread_of_isShort fits short

/-! ### Numbers that are not read back -/

/-- The double nearest to `10 ^ -24`. -/
def yocto : Binary64 := ⟨false, 0x3AF357C299A88EA7, by decide⟩

/-- The double behind it, which is what comes of dividing one by `10 ^ 24`. -/
def afterYocto : Binary64 := ⟨false, 0x3AF357C299A88EA8, by decide⟩

theorem reread_yocto : Json.reread (.real yocto) = .real afterYocto := by
  have digits : Binary64.shortest .toEven yocto.magnitude = ⟨['1'], -23⟩ := by decide +kernel
  have literal : realLiteral yocto = ⟨false, ['1'], none, some (-24)⟩ := by
    rw [realLiteral, if_neg (by decide), show jsonReal.tie = .toEven from rfl, digits]
    rfl
  have quotient : Binary64.divMagnitude (Binary64.magnitudeOfNat 1)
      (Binary64.magnitudeOfNat (10 ^ 24)) = afterYocto.magnitude := by decide +kernel
  exact Json.reread_real literal (by decide) (.inr (Option.some_ne_none _)) rfl
    ((scaleByTen_of_le (by decide) _).trans (congrArg some quotient))

theorem reread_afterYocto : Json.reread (.real afterYocto) = .real yocto := by
  have digits : Binary64.shortest .toEven afterYocto.magnitude =
      ⟨"10000000000000001".toList, -23⟩ := by decide +kernel
  have literal : realLiteral afterYocto =
      ⟨false, ['1'], some "0000000000000001".toList, some (-24)⟩ := by
    rw [realLiteral, if_neg (by decide), show jsonReal.tie = .toEven from rfl, digits]
    rfl
  have quotient : Binary64.divMagnitude (Binary64.magnitudeOfNat 10000000000000001)
      (Binary64.magnitudeOfNat (10 ^ 40)) = yocto.magnitude := by decide +kernel
  exact Json.reread_real literal (by decide) (.inr (Option.some_ne_none _)) rfl
    ((scaleByTen_of_le (by decide) _).trans (congrArg some quotient))

/-- A spec with a single number. -/
def weighed (n : Value) : Document :=
  ⟨[("mass", .number n)]⟩

theorem parse_weighed {n : Value} (path : String) (fits : n.Fits) :
    parse path (weighed n).text = .ok (weighed (Json.reread n)) := by
  have reads : Json.Reads (Json.readValue Json.maxDepth) 0 (weighed n).toJson
      (weighed (Json.reread n)).toJson := by
    have distinct : ([("mass", Json.number n)].map (·.1)).Nodup := List.nodup_singleton _
    refine Json.reads_object (g := Json.renumber Json.reread) distinct fun m hm => ?_
    rw [List.mem_singleton.1 hm]
    exact Json.reads_number (Json.rereadsAs_reread fits)
  refine parse_of_read? (Json.read?_of_reads reads fun c hc => ?_)
  rw [List.mem_singleton.1 hc]
  rfl

theorem text_weighed_yocto :
    (weighed (.real yocto)).text = "\x7b\n  \"mass\": 1e-24\n\x7d\n" := by
  decide +kernel

theorem text_weighed_afterYocto :
    (weighed (.real afterYocto)).text = "\x7b\n  \"mass\": 1.0000000000000001e-24\n\x7d\n" := by
  decide +kernel

theorem parse_weighed_yocto (path : String) :
    parse path (weighed (.real yocto)).text = .ok (weighed (.real afterYocto)) := by
  rw [parse_weighed (n := .real yocto) path trivial, reread_yocto]

theorem text_again_weighed :
    parse "openapi.json" "\x7b\n  \"mass\": 1e-24\n\x7d\n" = .ok (weighed (.real afterYocto)) ∧
      ∃ again, parse "openapi.json" (weighed (.real afterYocto)).text = .ok again ∧
        again.toJson = (weighed (.real afterYocto)).toJson.renumber Json.reread ∧
        (again.text = (weighed (.real afterYocto)).text ↔
          ∀ n ∈ (weighed (.real afterYocto)).toJson.numbers, Json.reread n = n) ∧
        ∀ n ∈ (weighed (.real afterYocto)).toJson.numbers, n.IsShort → Json.reread n = n := by
  have parsed := parse_weighed_yocto "openapi.json"
  rw [text_weighed_yocto] at parsed
  exact ⟨parsed, text_again parsed⟩

/-- What is written for `1e-24` is read as the double it was written for no more. -/
theorem text_drifts :
    ∃ doc again, parse "openapi.json" "\x7b\n  \"mass\": 1e-24\n\x7d\n" = .ok doc ∧
      doc.text = "\x7b\n  \"mass\": 1.0000000000000001e-24\n\x7d\n" ∧
        parse "openapi.json" doc.text = .ok again ∧ again.text ≠ doc.text := by
  have parsed := parse_weighed_yocto "openapi.json"
  have again := parse_weighed "openapi.json" (n := .real afterYocto) trivial
  rw [text_weighed_yocto] at parsed
  rw [reread_afterYocto] at again
  refine ⟨_, _, parsed, text_weighed_afterYocto, again, ?_⟩
  rw [text_weighed_yocto, text_weighed_afterYocto]
  decide

end OpenApiModels.Spec.Document
