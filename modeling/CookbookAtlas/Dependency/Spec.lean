import CookbookAtlas.Json.Record
import CookbookAtlas.Text.Basic

/-! Dependencies by name and version, as a strategy reports them, and the listing that names
them. -/
namespace CookbookAtlas.Dependency

structure Spec where
  name : String
  version : String
  identifier : Option String
deriving DecidableEq

structure ListingEntry where
  name : String
  version : String
  location : Option String

namespace ListingEntry

def fieldNames : List String := ["name", "version", "location"]

def decode : Json.Decoder ListingEntry := fun depth doc => do
  let fields ← Json.record? fieldNames depth doc
  let name ← fields.required 0 Json.Decoder.string
  let version ← fields.withDefault 1 "" Json.Decoder.string
  let location ← fields.optional 2 Json.Decoder.string
  return ⟨name, version, location⟩

/-- The location of the cookbook that the listing was made for. -/
def ownLocation : String := "source at ."

def isOwn (e : ListingEntry) : Bool := e.location == some ownLocation

end ListingEntry

def listingFields : List String := ["cookbooks"]

def decodeListing : Json.Decoder (List ListingEntry) := fun depth doc => do
  let fields ← Json.record? listingFields depth doc
  fields.withDefault 0 [] (Json.Decoder.list ListingEntry.decode)

def unexpectedListing : String := "Unexpected output from 'berks list --format json'"

/-- The dependencies of a listing: all its entries but the cookbook it was made for. -/
def readListing? (cs : List Char) : Option (List Spec) :=
  (Json.decode? decodeListing (Text.trim cs)).map fun entries =>
    (entries.filter fun e => !e.isOwn).map fun e => ⟨e.name, e.version, none⟩

end CookbookAtlas.Dependency
