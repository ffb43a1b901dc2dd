import LinkPriority.Proofs.Json.Numbers
import LinkPriority.Proofs.Reading

/-! Every text of a value is read as that value. A machine is led through a phrase to one that holds it, by induction
on how the phrase is written. Only a number is not over with its last character; there the machine settles as what it
will be once a symbol follows that does not belong to the number. -/

namespace LinkPriority.Json

namespace Machine

variable {m t u : Machine} {stack : List Frame} {phase : Phase} {v : Value} {cs ds bs : List Char} {c : Char}

/-- Characters lead from one machine to another. -/
def Leads (m : Machine) (cs : List Char) (t : Machine) : Prop := m.run (utf8 cs) = some t

theorem Leads.refl (m : Machine) : m.Leads [] m := rfl

theorem Leads.trans (h : m.Leads cs t) (hrest : t.Leads ds u) : m.Leads (cs ++ ds) u := by
  rw [Leads, utf8_append, run_append, h, Option.bind_some, hrest]

theorem Leads.symbol (hc : c.toNat < 0x80) (h : m.step (octetOf c) = some t) (hrest : t.Leads cs u) :
    m.Leads (c :: cs) u := by
  rw [Leads, utf8_cons_of_ascii hc, run, List.foldlM_cons, h]
  exact hrest

/-! ### Blanks and the ends of numbers -/

/-- The phases between two tokens. -/
def IsBetween (phase : Phase) : Prop := ∀ stack octet, step ⟨stack, phase⟩ octet = between ⟨stack, phase⟩ (symbol octet)

theorem blank_spec (h : c ∈ [' ', '\t', '\n', '\r']) : c.toNat < 0x80 ∧ isBlank c = true := by
  simp only [List.mem_cons, List.not_mem_nil, or_false] at h
  rcases h with rfl | rfl | rfl | rfl <;> exact ⟨by decide, rfl⟩

theorem leads_blanks (hphase : IsBetween phase) (hbs : IsBlanks bs) : Leads ⟨stack, phase⟩ bs ⟨stack, phase⟩ := by
  induction bs with
  | nil => exact .refl _
  | cons c bs ih =>
    obtain ⟨hc, hrest⟩ := List.forall_mem_cons.1 hbs
    obtain ⟨hascii, hblank⟩ := blank_spec hc
    refine .symbol hascii ?_ (ih hrest)
    rw [hphase, symbol_octetOf hascii]
    exact if_pos hblank

theorem step_complete (stack : List Frame) (v : Value) (octet : UInt8) :
    (complete stack v).step octet = (complete stack v).between (symbol octet) := by
  rcases stack with _ | ⟨_ | _, _⟩ <;> rfl

/-- A machine is as good as another: it is the same, or holds a number that is only not known to be over. -/
inductive Settles : Machine → Machine → Prop where
  | refl (m : Machine) : Settles m m
  | number {scan : NumberScan} (h : scan.isComplete = true) (stack : List Frame) :
    Settles ⟨stack, .number scan⟩ (complete stack (.number scan.result))

/-- The symbols that may follow a value. -/
def delimiters : List Char := [' ', '\t', '\n', '\r', ',', ']', '\x7d']

theorem delimiter_spec (h : c ∈ delimiters) :
    c.toNat < 0x80 ∧ digit? c = none ∧ c ∉ ['.', 'e', 'E'] := by
  simp only [delimiters, List.mem_cons, List.not_mem_nil, or_false] at h
  rcases h with rfl | rfl | rfl | rfl | rfl | rfl | rfl <;> exact ⟨by decide, rfl, by decide⟩

theorem Settles.leads (h : Settles m t) (hc : c ∈ delimiters) (hrest : t.Leads (c :: cs) u) : m.Leads (c :: cs) u := by
  cases h with
  | refl => exact hrest
  | @number scan hcomplete stack =>
    obtain ⟨hascii, hdigit, hsymbol⟩ := delimiter_spec hc
    rw [← symbol_octetOf hascii] at hdigit hsymbol
    have hstep : step ⟨stack, .number scan⟩ (octetOf c) = (complete stack (.number scan.result)).step (octetOf c) := by
      rw [step_complete]
      simp only [step, NumberScan.step_of_isComplete hcomplete hdigit hsymbol]
    rwa [Leads, utf8_cons_of_ascii hascii, run, List.foldlM_cons, hstep, ← List.foldlM_cons, ← run,
      ← utf8_cons_of_ascii hascii]

/-- Characters lead from one machine to one that is as good as another. -/
def LeadsTo (m : Machine) (cs : List Char) (t : Machine) : Prop := ∃ m', m.Leads cs m' ∧ Settles m' t

theorem Leads.to (h : m.Leads cs t) : m.LeadsTo cs t := ⟨t, h, .refl t⟩

theorem Leads.transTo (h : m.Leads cs t) (hrest : t.LeadsTo ds u) : m.LeadsTo (cs ++ ds) u := by
  obtain ⟨m', hm', hsettles⟩ := hrest
  exact ⟨m', h.trans hm', hsettles⟩

theorem LeadsTo.symbol (hc : c.toNat < 0x80) (h : m.step (octetOf c) = some t) (hrest : t.LeadsTo cs u) :
    m.LeadsTo (c :: cs) u := by
  obtain ⟨m', hm', hsettles⟩ := hrest
  exact ⟨m', .symbol hc h hm', hsettles⟩

theorem LeadsTo.trans (h : m.LeadsTo cs t) (hc : c ∈ delimiters) (hrest : t.LeadsTo (c :: ds) u) :
    m.LeadsTo (cs ++ c :: ds) u := by
  obtain ⟨m', hm', hsettles⟩ := h
  obtain ⟨u', hu', hsettles'⟩ := hrest
  exact ⟨u', hm'.trans (hsettles.leads hc hu'), hsettles'⟩

theorem LeadsTo.blanks (h : m.LeadsTo cs (complete stack v)) (hbs : IsBlanks bs) :
    m.LeadsTo (cs ++ bs) (complete stack v) := by
  cases bs with
  | nil => rwa [List.append_nil]
  | cons c bs =>
    have hdelimiter : c ∈ delimiters := List.mem_append_left [',', ']', '\x7d'] (hbs c List.mem_cons_self)
    have hcomplete : (complete stack v).Leads (c :: bs) (complete stack v) := by
      rcases stack with _ | ⟨_ | _, _⟩ <;> exact leads_blanks (fun _ _ => rfl) hbs
    exact h.trans hdelimiter hcomplete.to

/-! ### Phrases -/

/-- A value may begin. -/
def Awaits (phase : Phase) : Prop := phase = .value ∨ phase = .firstItem

theorem beginValue_eq_none (h : isBlank c = true ∨ c = ']') : beginValue stack c = none := by
  simp only [isBlank, Bool.or_eq_true, decide_eq_true_eq] at h
  rcases h with (((rfl | rfl) | rfl) | rfl) | rfl <;> rfl

theorem step_of_beginValue (hphase : Awaits phase) (hc : c.toNat < 0x80) (h : beginValue stack c = some t) :
    step ⟨stack, phase⟩ (octetOf c) = some t := by
  have hnone : ¬(isBlank c = true ∨ c = ']') := fun hor => by simp [beginValue_eq_none hor] at h
  obtain ⟨hblank, hbracket⟩ := not_or.1 hnone
  rcases hphase with rfl | rfl
  · simp only [step, symbol_octetOf hc, between, hblank, Bool.false_eq_true, if_false, h]
  · simp only [step, symbol_octetOf hc, between, hblank, Bool.false_eq_true, if_false]
    split <;> simp_all

/-- A name may begin, after some members. -/
def AwaitsName (phase : Phase) (members : List (Option String × Value)) : Prop :=
  phase = .firstName ∧ members = [] ∨ phase = .name members

theorem Awaits.isBetween (h : Awaits phase) : IsBetween phase := by
  rcases h with rfl | rfl <;> exact fun _ _ => rfl

theorem AwaitsName.isBetween {members : List (Option String × Value)} (h : AwaitsName phase members) :
    IsBetween phase := by
  rcases h with ⟨rfl, -⟩ | rfl <;> exact fun _ _ => rfl

section Tokens

variable {text : Option String}

theorem exists_advances (h : StringWritten text cs) : ∃ ds s, cs = '"' :: (ds ++ ['"']) ∧
    Advances StringScan.step {} (utf8 ds) s ∧ s.step (octetOf '"') = .done text := by
  obtain ⟨hparts⟩ := h
  have hnone : ∀ unit ∈ (none : Option Nat), StringScan.isHighSurrogate unit := fun _ h => nomatch h
  obtain ⟨s, hadvance, hdone⟩ := StringScan.advances_parts hparts hnone (some [])
  exact ⟨_, s, rfl, hadvance, hdone⟩

theorem leads_word {rest : List Char} (hrest : ∀ c ∈ rest, c.toNat < 0x80) (hne : rest ≠ []) (stack : List Frame)
    (v : Value) : Leads ⟨stack, .word rest v⟩ rest (complete stack v) := by
  induction rest with
  | nil => exact absurd rfl hne
  | cons c rest ih =>
    obtain ⟨hc, hrest⟩ := List.forall_mem_cons.1 hrest
    have hstep : step ⟨stack, .word (c :: rest) v⟩ (octetOf c) =
        some (if rest.isEmpty then complete stack v else ⟨stack, .word rest v⟩) := if_pos (symbol_octetOf hc)
    cases rest with
    | nil => exact .symbol hc hstep (.refl _)
    | cons d rest => exact .symbol hc hstep (ih hrest (List.cons_ne_nil d rest))

theorem leads_string (h : StringWritten text cs) (hphase : Awaits phase) (stack : List Frame) :
    Leads ⟨stack, phase⟩ cs (complete stack (.string text)) := by
  obtain ⟨ds, s, rfl, hadvance, hdone⟩ := exists_advances h
  have hrun : Leads ⟨stack, .string {}⟩ ds ⟨stack, .string s⟩ :=
    hadvance.run (fun s => ⟨stack, .string s⟩) fun _ _ _ hstep => by simp only [step, hstep]
  refine .symbol (by decide) (step_of_beginValue hphase (by decide) rfl) (hrun.trans (.symbol (by decide) ?_ (.refl _)))
  simp only [step, hdone]

theorem leads_name {members : List (Option String × Value)} (h : StringWritten text cs)
    (hphase : AwaitsName phase members) (stack : List Frame) :
    Leads ⟨stack, phase⟩ cs ⟨stack, .colon members text⟩ := by
  obtain ⟨ds, s, rfl, hadvance, hdone⟩ := exists_advances h
  have hrun : Leads ⟨stack, .nameString members {}⟩ ds ⟨stack, .nameString members s⟩ :=
    hadvance.run (fun s => ⟨stack, .nameString members s⟩) fun _ _ _ hstep => by simp only [step, hstep]
  refine .symbol (by decide) ?_ (hrun.trans (.symbol (by decide) ?_ (.refl _)))
  · rcases hphase with ⟨rfl, rfl⟩ | rfl <;> rfl
  · simp only [step, hdone]

theorem leadsTo_number {text : NumberText} (h : NumberWritten text cs) (hphase : Awaits phase) (stack : List Frame) :
    LeadsTo ⟨stack, phase⟩ cs (complete stack (.number text)) := by
  obtain ⟨c, ds, begun, s, rfl, hc, hbegin, hadvance, hcomplete, rfl⟩ := NumberScan.exists_complete h
  have hrun : Leads ⟨stack, .number begun⟩ ds ⟨stack, .number s⟩ :=
    hadvance.run (fun s => ⟨stack, .number s⟩) fun _ _ _ hstep => by simp only [step, hstep]
  exact ⟨_, .symbol hc (step_of_beginValue hphase hc (hbegin stack)) hrun, .number hcomplete stack⟩

end Tokens

/-! Brackets, around what leads to their end. -/

theorem leadsTo_array {vs : List Value} (hphase : Awaits phase)
    (h : LeadsTo ⟨.array [] :: stack, .firstItem⟩ cs ⟨.array vs.reverse :: stack, .separator⟩) :
    LeadsTo ⟨stack, phase⟩ ('[' :: (cs ++ [']'])) (complete stack (.array vs)) := by
  have hclose : Leads ⟨.array vs.reverse :: stack, .separator⟩ [']'] (complete stack (.array vs.reverse.reverse)) :=
    .symbol (by decide) rfl (.refl _)
  rw [List.reverse_reverse] at hclose
  exact .symbol (by decide) (step_of_beginValue hphase (by decide) rfl) (h.trans (by decide) hclose.to)

theorem leadsTo_object {ms : List (Option String × Value)} {name : Option String} (hphase : Awaits phase)
    (h : LeadsTo ⟨stack, .firstName⟩ cs ⟨.object ms.reverse name :: stack, .separator⟩) :
    LeadsTo ⟨stack, phase⟩ ('\x7b' :: (cs ++ ['\x7d'])) (complete stack (.object ms)) := by
  have hclose : Leads ⟨.object ms.reverse name :: stack, .separator⟩ ['\x7d']
      (complete stack (.object ms.reverse.reverse)) := .symbol (by decide) rfl (.refl _)
  rw [List.reverse_reverse] at hclose
  exact .symbol (by decide) (step_of_beginValue hphase (by decide) rfl) (h.trans (by decide) hclose.to)

/-- Wherever a phrase may be read, its characters lead to a machine that holds it. -/
def Reads : Phrase → List Char → Prop
  | .value v, cs | .item v, cs => ∀ stack phase, Awaits phase → LeadsTo ⟨stack, phase⟩ cs (complete stack v)
  | .items vs, cs => ∀ stack phase before, Awaits phase →
    LeadsTo ⟨.array before :: stack, phase⟩ cs ⟨.array (vs.reverse ++ before) :: stack, .separator⟩
  | .member name v, cs => ∀ stack phase before, AwaitsName phase before →
    LeadsTo ⟨stack, phase⟩ cs ⟨.object ((name, v) :: before) name :: stack, .separator⟩
  | .members ms, cs => ∀ stack phase before, AwaitsName phase before →
    ∃ name, LeadsTo ⟨stack, phase⟩ cs ⟨.object (ms.reverse ++ before) name :: stack, .separator⟩

theorem reads_of_written {phrase : Phrase} (h : Written phrase cs) : Reads phrase cs := by
  induction h with
  | null | yes | no =>
    intro stack phase hphase
    refine (Leads.symbol (by decide) (step_of_beginValue hphase (by decide) rfl) ?_).to
    exact leads_word (by simp) (List.cons_ne_nil _ _) stack _
  | number h => exact fun stack phase hphase => leadsTo_number h hphase stack
  | string h => exact fun stack phase hphase => (leads_string h hphase stack).to
  | emptyArray hbs =>
    intro stack phase hphase
    have hclose : Leads ⟨.array [] :: stack, .firstItem⟩ [']'] (complete stack (.array [])) :=
      .symbol (by decide) rfl (.refl _)
    refine .symbol (by decide) (step_of_beginValue hphase (by decide) rfl) ?_
    exact ((leads_blanks (fun _ _ => rfl) hbs).trans hclose).to
  | array h ih =>
    intro stack phase hphase
    have hitems := ih stack .firstItem [] (.inr rfl)
    rw [List.append_nil] at hitems
    exact leadsTo_array hphase hitems
  | emptyObject hbs =>
    intro stack phase hphase
    have hclose : Leads ⟨stack, .firstName⟩ ['\x7d'] (complete stack (.object [])) :=
      .symbol (by decide) rfl (.refl _)
    refine .symbol (by decide) (step_of_beginValue hphase (by decide) rfl) ?_
    exact ((leads_blanks (fun _ _ => rfl) hbs).trans hclose).to
  | object h ih =>
    intro stack phase hphase
    obtain ⟨name, hmembers⟩ := ih stack .firstName [] (.inl ⟨rfl, rfl⟩)
    rw [List.append_nil] at hmembers
    exact leadsTo_object hphase hmembers
  | item hbefore h hafter ih =>
    intro stack phase hphase
    exact ((leads_blanks hphase.isBetween hbefore).transTo (ih stack phase hphase)).blanks hafter
  | lastItem h ih => exact fun stack phase before hphase => ih (.array before :: stack) phase hphase
  | @moreItems v vs _ _ h hrest ih ihrest =>
    intro stack phase before hphase
    have hcomma : step ⟨.array (v :: before) :: stack, .separator⟩ (octetOf ',') =
      some ⟨.array (v :: before) :: stack, .value⟩ := rfl
    rw [List.reverse_cons, List.append_assoc, List.singleton_append]
    exact (ih (.array before :: stack) phase hphase).trans (by decide)
      (.symbol (by decide) hcomma (ihrest stack .value (v :: before) (.inl rfl)))
  | @member name v _ _ _ _ hbefore hname hafter h ih =>
    intro stack phase before hphase
    have hcolon : step ⟨stack, .colon before name⟩ (octetOf ':') = some ⟨.object before name :: stack, .value⟩ := rfl
    have hlead := ((leads_blanks hphase.isBetween hbefore).trans (leads_name hname hphase stack)).trans
      (leads_blanks (fun _ _ => rfl) hafter)
    exact hlead.transTo (.symbol (by decide) hcolon (ih (.object before name :: stack) .value (.inl rfl)))
  | @lastMember name _ _ h ih => exact fun stack phase before hphase => ⟨name, ih stack phase before hphase⟩
  | @moreMembers name v ms _ _ h hrest ih ihrest =>
    intro stack phase before hphase
    have hcomma : step ⟨.object ((name, v) :: before) name :: stack, .separator⟩ (octetOf ',') =
      some ⟨stack, .name ((name, v) :: before)⟩ := rfl
    obtain ⟨last, hmembers⟩ := ihrest stack (.name ((name, v) :: before)) ((name, v) :: before) (.inr rfl)
    rw [List.reverse_cons, List.append_assoc, List.singleton_append]
    exact ⟨last, (ih stack phase before hphase).trans (by decide) (.symbol (by decide) hcomma hmembers)⟩

theorem Settles.result (h : Settles m (complete [] v)) : m.result = some v := by
  generalize ht : complete [] v = t at h
  cases h with
  | refl =>
    rw [← ht]
    rfl
  | @number scan hcomplete stack =>
    -- the number is the whole text, since no bracket is open
    rcases stack with _ | ⟨_ | _, _⟩
    · obtain rfl : v = .number scan.result := Phase.blanks.inj (congrArg Machine.phase ht)
      exact if_pos hcomplete
    · exact nomatch congrArg Machine.stack ht
    · exact nomatch congrArg Machine.stack ht

end Machine

/-- Every text of a value is read as that value. -/
theorem Value.read?_of_isText {v : Value} {octets : List UInt8} (h : v.IsText octets) :
    Value.read? octets = some v := by
  obtain ⟨cs, hwritten, rfl⟩ := h
  obtain ⟨m, hm, hsettles⟩ := Machine.reads_of_written hwritten [] .value (.inl rfl)
  have hrun : Machine.start.run (utf8 cs) = some m := hm
  rw [Value.read?, hrun, Option.bind_some, hsettles.result]

end LinkPriority.Json
