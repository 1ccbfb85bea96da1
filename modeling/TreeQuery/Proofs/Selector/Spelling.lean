import TreeQuery.Proofs.Selector.Support

/-! Which lists can be read from text at all.
A name of any characters can be spelled by escaping every one of them, so that reading reaches every
regular list, also those whose canonical text is not read back. -/
namespace TreeQuery

def escapeName (name : String) : List Char := name.toList.flatMap fun c => ['\\', c]

theorem readName_escaped_all (name : List Char) {text : List Char} (hs : Stops text) :
    ∃ size, readName (name.flatMap (fun c => ['\\', c]) ++ text) = .ok ⟨name, size, text⟩ := by
  induction name with
  | nil => exact ⟨0, readName_of_stops hs⟩
  | cons c name ih =>
    obtain ⟨size, ih⟩ := ih
    refine ⟨'\\'.utf8Size + c.utf8Size + size, ?_⟩
    rw [List.flatMap_cons, List.append_assoc, List.cons_append, List.singleton_append,
      readName_escaped, ih]
    rfl

theorem spells_escapeName {name : String} (hn : name ≠ "") : Spells escapeName name := by
  obtain ⟨c, rest, hc⟩ := List.exists_cons_of_ne_nil (toList_ne_nil hn)
  have hfirst : escapeName name = '\\' :: c :: rest.flatMap fun c => ['\\', c] := by
    rw [escapeName, hc]
    rfl
  refine ⟨fun {text} hs => ?_, _, _, hfirst, by decide, by decide⟩
  obtain ⟨size, hr⟩ := readName_escaped_all name.toList hs
  have hread : Token.read '\\' (c :: rest.flatMap (fun c => ['\\', c]) ++ text) =
      .ok ⟨.ident name, size, text⟩ := by
    rw [Token.read, if_neg (by decide), if_neg (by decide), if_pos (.inl rfl)]
    rw [← List.cons_append, ← hfirst, escapeName, hr]
    simp [Except.map, Front.map, Token.ofName]
  rw [Gives, hfirst]
  exact lexemes_of_read hread

theorem Event.Regular.spelled {event : Event} (h : event.Regular) : event.Spelled escapeName := by
  cases event with
  | test wanted => exact spells_escapeName h.name
  | combinator joint => trivial
  | nextSelector => trivial
  | _ => exact spells_escapeName h

theorem parse_escaped {list : SelectorList} (h : list.Regular) :
    SelectorList.parse (.ofList (list.events.flatMap (Event.spelled escapeName))) = .ok list :=
  parse_spelled h fun event he => (h.regular_events event he).spelled

/-- The step that asks for one name and one value wherever a step can ask for a name or a value. -/
def Step.naming (name value : String) : Step :=
  Step.ofElement name |>.withId name |>.withClass name |>.withTest (.compare name .equals value)
    |>.withPseudoClass name |>.withPseudoElement name

theorem Step.Regular.naming {name : String} (hn : name ≠ "") (value : String) :
    (Step.naming name value).Regular := by
  have htest : (AttributeSelector.compare name .equals value).Regular :=
    ⟨hn, rfl, ⟨fun _ => nofun, fun _ => rfl⟩⟩
  have hnamed := ((Step.Regular.any.withElement name).withId hn).withClass hn
  exact ((hnamed.withTest htest).withPseudoClass hn).withPseudoElement hn

/-- The lists that can be read from some text are the regular ones; each of them can be evaluated,
and every name and value can be asked for in them. -/
theorem SelectorList.exists_text_iff_regular :
    (∀ list : SelectorList, (∃ text, parse text = .ok list) ↔ list.Regular) ∧
      (∀ list : SelectorList, (∃ text, parse text = .ok list) → list.supported = .ok ()) ∧
      ∀ name value : String, name ≠ "" →
        ∃ text, parse text = .ok ⟨[⟨[.naming name value], nofun⟩]⟩ := by
  have hiff : ∀ list : SelectorList, (∃ text, parse text = .ok list) ↔ list.Regular := by
    intro list
    constructor
    · rintro ⟨text, h⟩
      exact regular_of_parse h
    · exact fun h => ⟨_, parse_escaped h⟩
  refine ⟨hiff, fun list h => ?_, fun name value hn => ?_⟩
  · exact supported_eq_ok_iff.mpr ((hiff list).mp h).searchable
  · refine (hiff _).mpr ⟨nofun, List.forall_mem_singleton.mpr ⟨?_, ?_, nofun⟩⟩
    · exact List.forall_mem_singleton.mpr (.naming hn value)
    · rintro step ⟨⟩
      rfl

/-- Names that start with a no-break space can be asked for, though not in canonical text. -/
theorem SelectorList.exists_text_of_blank :
    let list : SelectorList := ⟨[⟨[.naming "\u00a0" "\u00a0"], nofun⟩]⟩
    "\u00a0" ≠ "" ∧ (∃ text, parse text = .ok list) ∧ parse list.text ≠ .ok list := by
  intro list
  have hn : "\u00a0" ≠ "" := by decide
  refine ⟨hn, exists_text_iff_regular.2.2 "\u00a0" "\u00a0" hn, fun hp => ?_⟩
  have hwritable := writable_of_parse_text hp _ List.mem_cons_self _ List.mem_cons_self
  exact absurd (hwritable.id "\u00a0" rfl) (by decide)

end TreeQuery
