import Mathlib.Data.List.Basic

/-! The sections of a match parameter and the bit layouts of `mlx5_ifc.h`. -/
namespace Fusa.Steering

/-- A field: its bits, and whether it is read with `DR_DEVX_GET_CLEAR` or with `DEVX_GET`. -/
structure Fld where
  name : String
  width : ℕ
  clear : Bool
deriving DecidableEq, Repr

def Fld.clr (name : String) (width : ℕ) : Fld := ⟨name, width, true⟩

def Fld.kept (name : String) (width : ℕ) : Fld := ⟨name, width, false⟩

/-- The fields of a section from its first bit on; the host structures have them in this order. -/
abbrev Layout := List Fld

def drMatchSpec : Layout :=
  [.clr "smac_47_16" 32, .clr "smac_15_0" 16, .clr "ethertype" 16, .clr "dmac_47_16" 32,
   .clr "dmac_15_0" 16, .clr "first_prio" 3, .clr "first_cfi" 1, .clr "first_vid" 12,
   .clr "ip_protocol" 8, .clr "ip_dscp" 6, .clr "ip_ecn" 2, .clr "cvlan_tag" 1, .clr "svlan_tag" 1,
   .clr "frag" 1, .clr "ip_version" 4, .clr "tcp_flags" 9, .clr "tcp_sport" 16, .clr "tcp_dport" 16,
   .kept "reserved_at_c0" 16, .clr "ipv4_ihl" 4, .clr "l3_ok" 1, .clr "l4_ok" 1,
   .clr "ipv4_checksum_ok" 1, .clr "l4_checksum_ok" 1, .clr "ip_ttl_hoplimit" 8,
   .clr "udp_sport" 16, .clr "udp_dport" 16, .clr "src_ip_127_96" 32, .clr "src_ip_95_64" 32,
   .clr "src_ip_63_32" 32, .clr "src_ip_31_0" 32, .clr "dst_ip_127_96" 32, .clr "dst_ip_95_64" 32,
   .clr "dst_ip_63_32" 32, .clr "dst_ip_31_0" 32]

def drMatchSetMisc : Layout :=
  [.clr "gre_c_present" 1, .clr "bth_a" 1, .clr "gre_k_present" 1, .clr "gre_s_present" 1,
   .clr "source_vhca_port" 4, .clr "source_sqn" 24, .kept "source_eswitch_owner_vhca_id" 16,
   .clr "source_port" 16, .clr "outer_second_prio" 3, .clr "outer_second_cfi" 1,
   .clr "outer_second_vid" 12, .clr "inner_second_prio" 3, .clr "inner_second_cfi" 1,
   .clr "inner_second_vid" 12, .clr "outer_second_cvlan_tag" 1, .clr "inner_second_cvlan_tag" 1,
   .clr "outer_second_svlan_tag" 1, .clr "inner_second_svlan_tag" 1, .kept "outer_emd_tag" 1,
   .kept "reserved_at_65" 11, .clr "gre_protocol" 16, .clr "gre_key_h" 24, .clr "gre_key_l" 8,
   .clr "vxlan_vni" 24, .clr "bth_opcode" 8, .clr "geneve_vni" 24, .kept "reserved_at_e4" 6,
   .kept "geneve_tlv_option_0_exist" 1, .clr "geneve_oam" 1, .kept "reserved_at_ec" 12,
   .clr "outer_ipv6_flow_label" 20, .kept "reserved_at_100" 12, .clr "inner_ipv6_flow_label" 20,
   .kept "reserved_at_120" 10, .clr "geneve_opt_len" 6, .clr "geneve_protocol_type" 16,
   .kept "reserved_at_140" 8, .clr "bth_dst_qp" 24, .kept "inner_esp_spi" 32,
   .kept "outer_esp_spi" 32, .kept "reserved_at_1a0" 32, .kept "reserved_at_1c0" 32,
   .kept "reserved_at_1e0" 32]

def drMatchSetMisc2 : Layout :=
  [.clr "outer_first_mpls_label" 20, .clr "outer_first_mpls_exp" 3, .clr "outer_first_mpls_s_bos" 1,
   .clr "outer_first_mpls_ttl" 8, .clr "inner_first_mpls_label" 20, .clr "inner_first_mpls_exp" 3,
   .clr "inner_first_mpls_s_bos" 1, .clr "inner_first_mpls_ttl" 8,
   .clr "outer_first_mpls_over_gre_label" 20, .clr "outer_first_mpls_over_gre_exp" 3,
   .clr "outer_first_mpls_over_gre_s_bos" 1, .clr "outer_first_mpls_over_gre_ttl" 8,
   .clr "outer_first_mpls_over_udp_label" 20, .clr "outer_first_mpls_over_udp_exp" 3,
   .clr "outer_first_mpls_over_udp_s_bos" 1, .clr "outer_first_mpls_over_udp_ttl" 8,
   .clr "metadata_reg_c_7" 32, .clr "metadata_reg_c_6" 32, .clr "metadata_reg_c_5" 32,
   .clr "metadata_reg_c_4" 32, .clr "metadata_reg_c_3" 32, .clr "metadata_reg_c_2" 32,
   .clr "metadata_reg_c_1" 32, .clr "metadata_reg_c_0" 32, .clr "metadata_reg_a" 32,
   .kept "reserved_at_1a0" 32, .kept "reserved_at_1c0" 32, .kept "reserved_at_1e0" 32]

def drMatchSetMisc3 : Layout :=
  [.clr "inner_tcp_seq_num" 32, .clr "outer_tcp_seq_num" 32, .clr "inner_tcp_ack_num" 32,
   .clr "outer_tcp_ack_num" 32, .kept "reserved_at_80" 8, .clr "outer_vxlan_gpe_vni" 24,
   .clr "outer_vxlan_gpe_next_protocol" 8, .clr "outer_vxlan_gpe_flags" 8,
   .kept "reserved_at_b0" 16, .clr "icmp_header_data" 32, .clr "icmpv6_header_data" 32,
   .clr "icmp_type" 8, .clr "icmp_code" 8, .clr "icmpv6_type" 8, .clr "icmpv6_code" 8,
   .clr "geneve_tlv_option_0_data" 32, .clr "gtpu_teid" 32, .clr "gtpu_msg_type" 8,
   .clr "gtpu_msg_flags" 8, .kept "reserved_at_170" 16, .clr "gtpu_dw_2" 32,
   .clr "gtpu_first_ext_dw_0" 32, .clr "gtpu_dw_0" 32, .kept "reserved_at_1e0" 32]

def drMatchSetMisc4 : Layout :=
  [.clr "prog_sample_field_value_0" 32, .clr "prog_sample_field_id_0" 32,
   .clr "prog_sample_field_value_1" 32, .clr "prog_sample_field_id_1" 32,
   .clr "prog_sample_field_value_2" 32, .clr "prog_sample_field_id_2" 32,
   .clr "prog_sample_field_value_3" 32, .clr "prog_sample_field_id_3" 32,
   .clr "prog_sample_field_value_4" 32, .clr "prog_sample_field_id_4" 32,
   .clr "prog_sample_field_value_5" 32, .clr "prog_sample_field_id_5" 32,
   .clr "prog_sample_field_value_6" 32, .clr "prog_sample_field_id_6" 32,
   .clr "prog_sample_field_value_7" 32, .clr "prog_sample_field_id_7" 32]

def drMatchSetMisc5 : Layout :=
  [.clr "macsec_tag_0" 32, .clr "macsec_tag_1" 32, .clr "macsec_tag_2" 32, .clr "macsec_tag_3" 32,
   .clr "tunnel_header_0" 32, .clr "tunnel_header_1" 32, .clr "tunnel_header_2" 32,
   .clr "tunnel_header_3" 32, .kept "reserved_at_100" 32, .kept "reserved_at_120" 32,
   .kept "reserved_at_140" 32, .kept "reserved_at_160" 32, .kept "reserved_at_180" 32,
   .kept "reserved_at_1a0" 32, .kept "reserved_at_1c0" 32, .kept "reserved_at_1e0" 32]

/-- The sections of `struct dr_match_param`, which are the bits of `enum dr_matcher_criteria`. -/
inductive Criterion
  | outer | misc | inner | misc2 | misc3 | misc4 | misc5
deriving DecidableEq, Repr

namespace Criterion

def all : List Criterion := [outer, misc, inner, misc2, misc3, misc4, misc5]

/-- The bit of the section in `match_criteria`. -/
def bit : Criterion → ℕ
  | outer => 0
  | misc => 1
  | inner => 2
  | misc2 => 3
  | misc3 => 4
  | misc4 => 5
  | misc5 => 6

def layout : Criterion → Layout
  | outer => drMatchSpec
  | misc => drMatchSetMisc
  | inner => drMatchSpec
  | misc2 => drMatchSetMisc2
  | misc3 => drMatchSetMisc3
  | misc4 => drMatchSetMisc4
  | misc5 => drMatchSetMisc5

end Criterion

/-- `DEVX_ST_SZ_BYTES` of each section. -/
def sectionSz : ℕ := 64

/-- `DEVX_ST_SZ_BYTES(dr_match_param)`. -/
def paramSz : ℕ := 448

/-- `param_location` of the section. -/
def Criterion.loc (c : Criterion) : ℕ := sectionSz * c.bit

def enabled (criteria : UInt8) (c : Criterion) : Bool := criteria.toNat.testBit c.bit

/-- Every field lies in one dword, and the fields end with the section. -/
def Layout.Fits : ℕ → Layout → Prop
  | off, [] => off = 8 * sectionSz
  | off, f :: fs => 0 < f.width ∧ off % 32 + f.width ≤ 32 ∧ Layout.Fits (off + f.width) fs

instance Layout.decidableFits : (off : ℕ) → (l : Layout) → Decidable (l.Fits off)
  | off, [] => inferInstanceAs (Decidable (off = 8 * sectionSz))
  | off, f :: fs =>
    have := decidableFits (off + f.width) fs
    inferInstanceAs (Decidable (_ ∧ _ ∧ Layout.Fits (off + f.width) fs))

theorem Criterion.fits (c : Criterion) : c.layout.Fits 0 := by
  cases c <;> decide +kernel

theorem Criterion.mem_all (c : Criterion) : c ∈ all := by
  cases c <;> decide

theorem Criterion.loc_add_le (c : Criterion) : c.loc + sectionSz ≤ paramSz := by
  cases c <;> decide

theorem Criterion.pairwise_all : all.Pairwise (fun c d => c.loc + sectionSz ≤ d.loc) := by
  decide

end Fusa.Steering
